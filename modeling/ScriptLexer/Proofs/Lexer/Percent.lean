import ScriptLexer.Proofs.Lexer.Sightings
import ScriptLexer.Proofs.Lexer.Statement

/-!
# Percent signs

A percent sign in front of a delimiter opens a literal where an operand is expected, and is the
modulo operator behind a value. A bare name is in between: `a%(b)` divides, but `a %(b)` passes an
argument to a call. Which it is depends on the last token alone and on whether the percent sign
touches it.

There is one exception, and that is a defect of the lexer. The opener of a heredoc is a value as
well, and among the kinds that end one. But what stands behind it on its line is read in a construct
of its own, in which nothing has been read yet, and there an operand is expected. So a percent sign
that touches the opener may open a literal, which then takes in the line end and the body.

## Main definitions

* `Delimiter.Follows` — what opens a literal behind a percent sign, letter by letter
* `Sighting.LeavesOperand` — a token behind which an operand is expected
* `Token.IsPercentLiteral` — a token of quoted text that a percent sign opens

## Main results

* `Lexer.percent_opens_iff` — when a percent sign opens a literal
* `Lexer.percent_behind_heredoc` — it may do so behind a value
-/

namespace ScriptLexer

/-! ### Delimiters -/

namespace Delimiter

/-- A delimiter stands at the front of bytes: a byte of punctuation, or one behind a letter. -/
def Follows (rest : List Byte) : Prop :=
  (∃ b ∈ rest.head?, b.isPunctuation) ∨
    ((rest.head? = some (Byte.ofChar 'Q') ∨ rest.head? = some (Byte.ofChar 'q'))
      ∧ ∃ b ∈ rest.tail.head?, b.isPunctuation)

theorem isSome_ofPunctuation? (isVerbatim : Bool) (letters : Nat) (rest : List Byte) :
    (ofPunctuation? isVerbatim letters rest).isSome ↔ ∃ b ∈ rest.head?, b.isPunctuation := by
  cases rest with
  | nil => simp [ofPunctuation?]
  | cons b rest =>
    rw [ofPunctuation?]
    split <;> simp_all

/-- **A delimiter is read where one follows.** -/
theorem isSome_read?_iff (rest : List Byte) : (read? rest).isSome ↔ Follows rest := by
  have hletter : ∀ letter : Byte, letter.isPunctuation = false →
      ¬ ∃ b ∈ some letter, b.isPunctuation := by
    rintro letter hfalse ⟨b, hb, htrue⟩
    cases hb
    rw [hfalse] at htrue
    cases htrue
  rw [read?.eq_def, Follows]
  split
  · rename_i rest
    rw [isSome_ofPunctuation?]
    refine ⟨fun h => .inr ⟨.inl rfl, h⟩, fun h => (h.resolve_left (hletter _ rfl)).2⟩
  · rename_i rest
    rw [isSome_ofPunctuation?]
    refine ⟨fun h => .inr ⟨.inr rfl, h⟩, fun h => (h.resolve_left (hletter _ rfl)).2⟩
  · rename_i hupper hlower
    rw [isSome_ofPunctuation?]
    refine ⟨.inl, fun h => h.resolve_right ?_⟩
    rintro ⟨hhead | hhead, -⟩
    · obtain ⟨rest, rfl⟩ := List.head?_eq_some_iff.mp hhead
      exact hupper rest rfl
    · obtain ⟨rest, rfl⟩ := List.head?_eq_some_iff.mp hhead
      exact hlower rest rfl

end Delimiter

/-! ### Lexemes -/

/-- A percent sign that does not assign, by whether an operand is expected. -/
theorem Lexeme.read_percent (l : Lookback) (lineStart : Bool) {rest : List Byte}
    (hassign : rest.head? ≠ some (Byte.ofChar '=')) :
    (∃ d, l.expectsOperand ∧ Delimiter.read? rest = some d
        ∧ read l lineStart (Byte.ofChar '%') rest = .quoted d.verbatim d.close (d.length + 1))
      ∨ ¬ (l.expectsOperand ∧ (Delimiter.read? rest).isSome)
        ∧ read l lineStart (Byte.ofChar '%') rest = .bare (.punctuator .percent) 1 := by
  have hread : read l lineStart (Byte.ofChar '%') rest = percent l rest := rfl
  have hpunctuation : punctuation 0x25 rest = .bare (.punctuator .percent) 1 := by
    have hmodulo : Punctuator.read? (0x25 :: rest) = some .percent := by
      cases rest with
      | nil => rfl
      | cons b rest =>
        have hb : b ≠ 0x3D := fun hb => hassign (congrArg some hb)
        simp [Punctuator.read?, Punctuator.withAssign, hb]
    rw [punctuation, hmodulo]
    rfl
  have hassign : (rest.head? != some (Byte.ofChar '=')) = true := by simpa using hassign
  rw [hread, percent, hassign, Bool.true_and, hpunctuation]
  cases hoperand : l.expectsOperand with
  | false => exact .inr ⟨fun h => Bool.false_ne_true h.1, rfl⟩
  | true =>
    rw [if_pos rfl]
    cases hd : Delimiter.read? rest with
    | none => exact .inr ⟨fun h => Bool.false_ne_true h.2, rfl⟩
    | some d => exact .inl ⟨d, rfl, rfl, rfl⟩

/-! ### What is seen -/

/-- An operand is expected at `p` behind a token that ends no value, and behind a bare name that
stands apart. -/
def Sighting.LeavesOperand (p : Nat) (s : Sighting) : Prop :=
  s.token.kind.endsValue = false ∨ (s.token.kind = .localVariable ∧ s.stop < p)

/-- The token is one of quoted text, which begins behind a percent sign and the delimiter that
begins `rest`. -/
def Token.IsPercentLiteral (rest : List Byte) (token : Token) : Prop :=
  ∃ d stop, Delimiter.read? rest = some d ∧ token.kind ∈ [.string, .stringPart, .illegal]
    ∧ token.literal = some ⟨token.pos + (d.length + 1), stop⟩

namespace Lexer

variable {source : List Byte} {l l' : Lexer} {token : Token} {seen : List Sighting}

/-- **Where an operand is expected** in statements is told by the last token, and by whether it
touches what comes next. -/
theorem Remembers.expectsOperand_iff (h : Remembers source seen l) {b : Byte} {rest : List Byte}
    (hregion : l.stack.top.region.holdsStatements) (hrest : l.settle.tape.rest = b :: rest)
    (hb : b ≠ Byte.newline) :
    l.settle.stack.top.lookback.expectsOperand
      ↔ ∀ s ∈ seen.getLast?, s.token.kind = .heredocBegin ∨ s.LeavesOperand l.settle.pos := by
  have hprevious := (h.kept_settle (by rw [hrest]; exact List.cons_ne_nil b rest)).1
  have habuts := h.abuts_settle hregion hrest hb
  have hle : l.pos ≤ l.settle.pos := h.sound.reads.settle.2.1
  rw [Lookback.expectsOperand, hprevious]
  rcases List.eq_nil_or_concat seen with rfl | ⟨before, s, rfl⟩
  · exact iff_of_true rfl fun s hs => by cases hs
  · rw [List.concat_eq_append] at h habuts ⊢
    have hlast : s ∈ (before ++ [s]).getLast? := by rw [List.getLast?_concat]; rfl
    have hchange := h.changes s (List.mem_append_right before List.mem_cons_self)
    have hstop : s.stop = l.pos := h.last s hlast
    have hforall : (∀ s' ∈ (before ++ [s]).getLast?, s'.token.kind = .heredocBegin
          ∨ s'.LeavesOperand l.settle.pos)
        ↔ s.token.kind = .heredocBegin ∨ s.LeavesOperand l.settle.pos := by
      simp
    rw [hforall]
    rw [Lookback.behind_snoc, Lookback.follow] at habuts ⊢
    cases hseen : s.change with
    | opens =>
      rw [hseen] at hchange
      refine iff_of_true rfl ?_
      rcases hchange with hkind | hkind | hkind
      · exact .inr (.inl (by rw [hkind]; rfl))
      · exact .inl hkind
      · exact .inr (.inl (by rw [hkind]; rfl))
    | turns =>
      rw [hseen] at hchange
      exact iff_of_true rfl (.inr (.inl (by rw [show s.token.kind = _ from hchange]; rfl)))
    | stays | closes =>
      rw [hseen] at hchange habuts
      have hheredoc : s.token.kind ≠ .heredocBegin := by
        intro hkind
        simp [Change.Of, hkind] at hchange
      have hapart : s.token.kind = .localVariable →
          (l.settle.stack.top.lookback.abuts = false ↔ s.stop < l.settle.pos) := by
        intro hkind
        rw [Bool.eq_false_iff, ne_eq, habuts, hstop]
        simp only [Lookback.after, hkind]
        simp only [bne_iff_ne, ne_eq, reduceCtorEq, not_false_eq_true, true_and]
        omega
      simp only [Lookback.after, hheredoc, false_or, Sighting.LeavesOperand]
      by_cases hname : s.token.kind = .localVariable
      · simp [hname, hapart hname]
      · simp [hname]

/-- **When a percent sign opens a literal.** In front of a delimiter it does so at the beginning of
a script, behind a token that ends no value, behind a bare name that stands apart, and behind the
opener of a heredoc. It is the modulo operator otherwise. -/
theorem percent_opens_iff (source : List Byte) (n : Nat) :
    ∃ seen l token l', calls sight n (ofBytes source) = .ok (seen, l)
      ∧ l.next = .ok (token, l')
      ∧ ∀ rest, l.stack.top.region.holdsStatements →
        source.drop token.pos = Byte.ofChar '%' :: rest → rest.head? ≠ some (Byte.ofChar '=') →
        let opens := Delimiter.Follows rest ∧ ∀ s ∈ seen.getLast?,
          s.token.kind = .heredocBegin ∨ s.LeavesOperand token.pos
        (token.IsPercentLiteral rest ↔ opens)
          ∧ (¬ opens → token = .bare token.pos (.punctuator .percent)
            ∧ l'.pos = token.pos + 1) := by
  obtain ⟨seen, l, hcalls, hl⟩ := exists_remembers source n
  obtain ⟨token, l', hnext, hmoves⟩ := exists_next hl.sound.reads
  refine ⟨seen, l, token, l', hcalls, hnext, ?_⟩
  intro rest hregion hsource hassign opens
  have hkind := hmoves.kind_ne_endOfInput hsource (by decide)
  have hreads : l.stack.top.region.ReadsStatement (Byte.ofChar '%') :=
    .of_ne (by decide) (by decide) hregion
  obtain ⟨hrest, hpos⟩ := hl.sound.settle_rest hnext hkind hsource
  have hopens : opens ↔ l.settle.stack.top.lookback.expectsOperand
      ∧ (Delimiter.read? rest).isSome := by
    rw [hl.expectsOperand_iff hregion hrest (by decide), Delimiter.isSome_read?_iff, hpos]
    exact And.comm
  rw [hopens]
  rcases Lexeme.read_percent l.settle.stack.top.lookback
    (l.settle.tape.isLineStart l.settle.tape.pos) hassign with
    ⟨d, hoperand, hd, hlexeme⟩ | ⟨hnot, hlexeme⟩
  · obtain ⟨hquoted, stop, hliteral⟩ := hl.sound.next_quoted hnext hkind hsource hreads hlexeme
    have hboth : l.settle.stack.top.lookback.expectsOperand ∧ (Delimiter.read? rest).isSome :=
      ⟨hoperand, by rw [hd]; rfl⟩
    exact ⟨iff_of_true ⟨d, stop, hd, hquoted, hliteral⟩ hboth, fun h => absurd hboth h⟩
  · have hbare := hl.sound.next_bare hnext hkind hsource hreads hlexeme
    refine ⟨iff_of_false ?_ hnot, fun _ => hbare⟩
    rintro ⟨d, stop, -, -, hliteral⟩
    rw [hbare.1] at hliteral
    cases hliteral

/-- A script in which a percent sign touches the opener of a heredoc. -/
def heredocPercentScript : List Byte :=
  Byte.ofString "<<A%(b)\nA\n"

/-- **A percent sign may open a literal behind a value.** The opener of a heredoc can end an
operand, and the percent sign that touches it is not read as an operator. -/
theorem percent_behind_heredoc :
    ¬ ∀ (source : List Byte) (n : Nat),
      ∃ seen l token l', calls sight n (ofBytes source) = .ok (seen, l)
        ∧ l.next = .ok (token, l')
        ∧ ∀ rest, l.stack.top.region.holdsStatements →
          source.drop token.pos = Byte.ofChar '%' :: rest →
          rest.head? ≠ some (Byte.ofChar '=') →
          let opens := Delimiter.Follows rest ∧ ∀ s ∈ seen.getLast?, s.LeavesOperand token.pos
          (token.IsPercentLiteral rest ↔ opens)
            ∧ (¬ opens → token = .bare token.pos (.punctuator .percent)
              ∧ l'.pos = token.pos + 1) := by
  intro h
  obtain ⟨seen, l, token, l', hcalls, hnext, hrule⟩ := h heredocPercentScript 1
  have hregion : (calls sight 1 (ofBytes heredocPercentScript)).toOption.map
      (·.2.stack.top.region.holdsStatements) = some true := by
    decide +kernel
  have hseen : (calls sight 2 (ofBytes heredocPercentScript)).toOption.map (·.1)
      = some ([⟨.withLiteral 0 .heredocBegin ⟨0, 3⟩, 3, .opens⟩]
        ++ [⟨.withLiteral 3 .string ⟨5, 6⟩, 7, .stays⟩]) := by
    decide +kernel
  rw [hcalls] at hregion
  rw [calls_snoc hcalls (sight_eq hnext)] at hseen
  obtain ⟨rfl, hlast⟩ := List.append_inj' (Option.some.inj hseen) rfl
  obtain ⟨rfl, -⟩ := Sighting.mk.inj (List.head_eq_of_cons_eq hlast)
  have hbare := (hrule (Byte.ofString "(b)\nA\n") (Option.some.inj hregion) rfl (by decide)).2
  have hvalue :
      ¬ (⟨.withLiteral 0 .heredocBegin ⟨0, 3⟩, 3, .opens⟩ : Sighting).LeavesOperand 3 := by
    rintro (hkind | ⟨hkind, -⟩) <;> cases hkind
  cases (hbare fun hopens => hvalue (hopens.2 _ rfl)).1

end Lexer

end ScriptLexer
