import ScriptLexer.Proofs.Lexer.Sightings
import ScriptLexer.Proofs.Lexer.Statement

/-!
# Signs

A sign in front of a digit belongs to the number, unless it touches the token in front of it: `a -1`
has a negative number, `a-1` a difference. The token in front of it is the last one of the same
construct, so the brace that opens an interpolation touches nothing in it, and the quote that closes
a string touches what stands behind the string.

Here this is said from outside. A caller who keeps a ledger, with a page for every open construct,
can tell from the offsets behind the tokens on the top page whether a sign is read as an operator.
The lexer keeps one bit for each construct.

## Main definitions

* `Ledger`, `ledger` — the tokens of each open construct, from what was seen
* `Ledger.Touches` — a token of the innermost construct ends at an offset

## Main results

* `Lexer.Remembers.touches_iff` — the bit is what the ledger says
* `Lexer.sign_absorbed_iff` — a sign is part of a number exactly if it touches no token
-/

namespace ScriptLexer

/-! ### A page for every construct -/

/-- The tokens that were recorded in each open construct since it was opened, the last one first. -/
structure Ledger where
  top : List Sighting
  below : List (List Sighting)
  deriving DecidableEq, Repr

namespace Ledger

/-- Enters a token on the page of the construct that was innermost in front of it. If the token
closed that, it counts for the one that comes to light. -/
def enter (g : Ledger) (s : Sighting) : Ledger :=
  match s.change with
  | .stays => ⟨s :: g.top, g.below⟩
  | .opens => ⟨[], (s :: g.top) :: g.below⟩
  | .turns => ⟨[], g.below⟩
  | .closes =>
    match g.below with
    | [] => ⟨s :: g.top, []⟩
    | page :: below => ⟨s :: page, below⟩

/-- A token of the innermost construct, and no line end, ends at `p`. -/
def Touches (g : Ledger) (p : Nat) : Prop :=
  ∃ s ∈ g.top, s.token.kind ≠ .newLine ∧ s.stop = p

/-- What holds of everything that is entered. -/
def All (P : Sighting → Prop) (g : Ledger) : Prop :=
  (∀ s ∈ g.top, P s) ∧ ∀ page ∈ g.below, ∀ s ∈ page, P s

variable {P : Sighting → Prop} {g : Ledger} {s : Sighting} {p : Nat}

theorem All.enter (h : g.All P) (hs : P s) : (g.enter s).All P := by
  obtain ⟨htop, hbelow⟩ := h
  have hnil : ∀ s ∈ ([] : List Sighting), P s := List.forall_mem_nil _
  rw [Ledger.enter]
  split
  · exact ⟨List.forall_mem_cons.mpr ⟨hs, htop⟩, hbelow⟩
  · exact ⟨hnil, List.forall_mem_cons.mpr ⟨List.forall_mem_cons.mpr ⟨hs, htop⟩, hbelow⟩⟩
  · exact ⟨hnil, hbelow⟩
  · split
    · exact ⟨List.forall_mem_cons.mpr ⟨hs, htop⟩, List.forall_mem_nil _⟩
    · rename_i page below hpages
      rw [hpages, List.forall_mem_cons] at hbelow
      exact ⟨List.forall_mem_cons.mpr ⟨hs, hbelow.1⟩, hbelow.2⟩

/-- What has just been entered touches an offset, if all that was entered before ended in front of
it. -/
theorem touches_enter (h : g.All (·.stop < p)) :
    (g.enter s).Touches p
      ↔ (s.change = .stays ∨ s.change = .closes) ∧ s.token.kind ≠ .newLine ∧ s.stop = p := by
  have hpage : ∀ page : List Sighting, (∀ s ∈ page, s.stop < p) →
      ((∃ s' ∈ s :: page, s'.token.kind ≠ .newLine ∧ s'.stop = p)
        ↔ s.token.kind ≠ .newLine ∧ s.stop = p) := by
    intro page hlt
    rw [List.exists_mem_cons_iff, or_iff_left]
    rintro ⟨s', hs', -, hstop⟩
    exact absurd hstop (Nat.ne_of_lt (hlt s' hs'))
  obtain ⟨htop, hbelow⟩ := h
  rw [Touches, enter]
  cases hchange : s.change with
  | stays => simpa using hpage g.top htop
  | opens => simp
  | turns => simp
  | closes =>
    cases hpages : g.below with
    | nil => simpa using hpage g.top htop
    | cons page below => simpa using hpage page (hbelow page (hpages ▸ List.mem_cons_self))

end Ledger

/-- The ledger behind all that was seen. -/
def ledger (seen : List Sighting) : Ledger :=
  seen.foldl Ledger.enter ⟨[], []⟩

theorem ledger_snoc (seen : List Sighting) (s : Sighting) :
    ledger (seen ++ [s]) = (ledger seen).enter s := by
  rw [ledger, List.foldl_append]
  rfl

theorem all_ledger {P : Sighting → Prop} {seen : List Sighting} (h : ∀ s ∈ seen, P s) :
    (ledger seen).All P := by
  induction seen using List.reverseRecOn with
  | nil => exact ⟨List.forall_mem_nil _, List.forall_mem_nil _⟩
  | append_singleton seen s ih =>
    rw [List.forall_mem_append, List.forall_mem_singleton] at h
    rw [ledger_snoc]
    exact (ih h.1).enter h.2

/-! ### Calls -/

namespace Lexer

variable {source : List Byte} {l : Lexer} {seen : List Sighting} {p : Nat}

/-- **The bit that a construct keeps is what its page says.** -/
theorem Remembers.touches_iff (h : Remembers source seen l) (hrest : l.tape.rest ≠ [])
    (hp : l.pos ≤ p) :
    (ledger seen).Touches p ↔ (Lookback.behind seen).abuts ∧ l.pos = p := by
  rcases List.eq_nil_or_concat seen with rfl | ⟨before, s, rfl⟩
  · exact iff_of_false (fun ⟨s, hs, _⟩ => by cases hs) fun h => by cases h.1
  · rw [List.concat_eq_append] at h ⊢
    have hearlier := h.earlier hrest
    rw [List.dropLast_concat] at hearlier
    have hstop : s.stop = l.pos := h.last s (by rw [List.getLast?_concat]; rfl)
    have hbefore : (ledger before).All (·.stop < p) :=
      all_ledger fun s hs => Nat.lt_of_lt_of_le (hearlier s hs) hp
    rw [ledger_snoc, Ledger.touches_enter hbefore, Lookback.behind_snoc, Lookback.follow, hstop]
    cases s.change <;> simp [Lookback.after, Lookback.fresh]

/-- **A sign belongs to the number behind it exactly if it touches no token in front of it.** -/
theorem sign_absorbed_iff (source : List Byte) (n : Nat) :
    ∃ seen l token l', calls sight n (ofBytes source) = .ok (seen, l)
      ∧ l.next = .ok (token, l')
      ∧ ∀ sign digit rest, l.stack.top.region.holdsStatements →
        source.drop token.pos = sign :: digit :: rest →
        sign = Byte.ofChar '+' ∨ sign = Byte.ofChar '-' → digit.isDecimal →
        ((token.kind ∈ Number.kinds ∧ token.literal = some ⟨token.pos, l'.pos⟩)
            ↔ ¬ (ledger seen).Touches token.pos)
          ∧ ((ledger seen).Touches token.pos →
            token = .bare token.pos
              (.punctuator (if sign = Byte.ofChar '+' then .plus else .minus))
            ∧ l'.pos = token.pos + 1) := by
  obtain ⟨seen, l, hcalls, hl⟩ := exists_remembers source n
  obtain ⟨token, l', hnext, hmoves⟩ := exists_next hl.sound.reads
  refine ⟨seen, l, token, l', hcalls, hnext, ?_⟩
  intro sign digit rest hregion hsource hsign hdigit
  have hne : ∀ b : Byte, b ≠ Byte.ofChar '+' → b ≠ Byte.ofChar '-' → sign ≠ b := by
    rintro b hplus hminus rfl
    exact hsign.elim hplus hminus
  have hline := hne Byte.newline (by decide) (by decide)
  have hkind := hmoves.kind_ne_endOfInput hsource (hne _ (by decide) (by decide))
  have hreads := Region.ReadsStatement.of_ne (hne _ (by decide) (by decide)) hline hregion
  obtain ⟨hrest, hpos⟩ := hl.sound.settle_rest hnext hkind hsource
  have htouches : (ledger seen).Touches token.pos ↔ l.settle.stack.top.lookback.abuts := by
    rw [hl.touches_iff (rest_ne_nil_of_settle (by rw [hrest]; exact List.cons_ne_nil _ _))
      hmoves.begins, hl.abuts_settle hregion hrest hline, hpos]
    exact and_congr_right fun _ => eq_comm
  have hlexeme : l.lexeme sign (digit :: rest) = _ := Lexeme.read_sign _ _ hsign hdigit
  rw [htouches]
  cases habuts : l.settle.stack.top.lookback.abuts with
  | true =>
    rw [habuts, if_pos rfl] at hlexeme
    obtain ⟨htoken, hstop⟩ := hl.sound.next_bare hnext hkind hsource hreads hlexeme
    refine ⟨iff_of_false ?_ (fun h => h rfl), fun _ => ⟨htoken, hstop⟩⟩
    rintro ⟨-, hliteral⟩
    rw [htoken] at hliteral
    cases hliteral
  | false =>
    rw [habuts, if_neg Bool.false_ne_true] at hlexeme
    obtain ⟨htoken, hstop, -⟩ := hl.sound.next_spelled hnext hkind hsource hreads hlexeme
    refine ⟨iff_of_true ⟨?_, ?_⟩ Bool.false_ne_true, fun h => absurd h Bool.false_ne_true⟩
    · rw [htoken]
      exact Number.kind_read _
    · rw [hstop, htoken]
      rfl

end Lexer

end ScriptLexer
