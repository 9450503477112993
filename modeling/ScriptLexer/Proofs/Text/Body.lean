import ScriptLexer.Proofs.Text.Lines

/-!
# Where the body of a heredoc ends

The body of a heredoc is read unit by unit: a byte that stands for itself, or an escape. It ends in
front of a unit, so a line that would close it is not seen inside an escape, and neither is an
introducer; and a line feed that an escape takes starts no line. Here this is said without the
decoder: `Reference.Boundary` tells between which bytes units meet, `Reference.StopsFirst` that a
boundary is the first where something ends the body, and `Reference.text` what the units up to there
stand for.

The line that closes the body is taken apart too. It is the identifier, perhaps behind blanks, and
what ends a line (`TerminatorLine.Holds`). The lexer finds it except in one case, an identifier that
begins with a blank where blanks may stand in front of it: the blank is taken for one of those.

## Main definitions

* `TerminatorLine.Holds` — the bytes begin with the line that closes a heredoc
* `Reference.Boundary` — an offset between two units, and whether a line of the text begins there
* `Reference.StopsFirst` — the first boundary at which the body ends, and why it does
* `Reference.text` — what bytes stand for as a whole

## Main results

* `TerminatorLine.read?_eq_some_iff` — which lines are found
* `Style.passage_stopsFirst` — a body is read up to the first boundary that ends it
* `Style.text_passage` — and stands for what its units stand for
-/

namespace ScriptLexer

/-! ### Lines that close a heredoc -/

namespace TerminatorLine

/-- The bytes begin with the line, which is the identifier, behind blanks if they are allowed, and
what ends a line. The first `n` bytes are those up to the end of the identifier. -/
def Holds (line : TerminatorLine) (bytes : List Byte) (n : Nat) : Prop :=
  ∃ blanks behind, bytes = blanks ++ (line.identifier ++ behind)
    ∧ n = blanks.length + line.identifier.length ∧ (∀ b ∈ blanks, Byte.isBlank b)
    ∧ (line.indented ∨ blanks = []) ∧ Line.endsHere behind

/-- The identifier cannot be told from the blanks in front of it. -/
def Blends (line : TerminatorLine) : Prop :=
  line.indented ∧ line.identifier.head?.any Byte.isBlank

variable {line : TerminatorLine} {bytes : List Byte} {n : Nat}

/-- The blanks that are passed over in front of the identifier: all there are, if any may be. -/
def indent (line : TerminatorLine) (bytes : List Byte) : List Byte :=
  if line.indented then bytes.takeWhile Byte.isBlank else []

theorem indent_append_drop (line : TerminatorLine) (bytes : List Byte) :
    line.indent bytes ++ bytes.drop (line.indent bytes).length = bytes := by
  rw [indent]
  split
  · exact List.prefix_iff_eq_append.mp (List.takeWhile_prefix _)
  · rfl

theorem isBlank_indent (line : TerminatorLine) (bytes : List Byte) :
    ∀ b ∈ line.indent bytes, Byte.isBlank b := by
  intro b hb
  rw [indent] at hb
  split at hb
  · exact List.mem_takeWhile_imp hb
  · cases hb

/-- A line is found if the identifier stands behind all blanks, and what ends a line behind it. -/
theorem read?_eq_some_iff_indent : line.read? bytes = some n ↔ ∃ behind,
    bytes = line.indent bytes ++ (line.identifier ++ behind) ∧ Line.endsHere behind
      ∧ n = (line.indent bytes).length + line.identifier.length := by
  have hlength : (if line.indented then (bytes.takeWhile Byte.isBlank).length else 0)
      = (line.indent bytes).length := by
    rw [indent]
    split <;> rfl
  rw [read?, hlength]
  constructor
  · intro h
    split at h
    · rename_i hfound
      cases h
      obtain ⟨behind, hbehind, hends⟩ := (Option.any_eq_true ..).mp hfound
      refine ⟨behind, ?_, hends, rfl⟩
      rw [← Line.eq_append_of_behind? hbehind, indent_append_drop]
    · cases h
  · rintro ⟨behind, hbytes, hends, rfl⟩
    have hdrop : bytes.drop (line.indent bytes).length = line.identifier ++ behind :=
      List.append_cancel_left ((indent_append_drop line bytes).trans hbytes)
    rw [hdrop, Line.behind?_append]
    exact if_pos hends

/-- **The lines that are found** are those that close the heredoc, but for an identifier that cannot
be told from the blanks in front of it. -/
theorem read?_eq_some_iff (hne : line.identifier ≠ []) :
    line.read? bytes = some n ↔ line.Holds bytes n ∧ ¬ line.Blends := by
  obtain ⟨identifier, indented⟩ := line
  obtain ⟨b, name, rfl⟩ := List.exists_cons_of_ne_nil hne
  rw [read?_eq_some_iff_indent]
  have hrun : ∀ {blanks : List Byte}, (∀ b ∈ blanks, Byte.isBlank b) → ∀ behind,
      (blanks ++ (b :: name ++ behind)).takeWhile Byte.isBlank
        = blanks ++ (b :: name ++ behind).takeWhile Byte.isBlank :=
    fun hblanks behind => List.takeWhile_append_of_pos hblanks
  constructor
  · rintro ⟨behind, hbytes, hends, rfl⟩
    refine ⟨⟨_, behind, hbytes, rfl, isBlank_indent _ bytes, ?_, hends⟩, ?_⟩
    · cases indented with
      | false => exact .inr rfl
      | true => exact .inl rfl
    · rintro ⟨rfl, hb⟩
      have hb : Byte.isBlank b := hb
      have hself : indent ⟨b :: name, true⟩ bytes
          = indent ⟨b :: name, true⟩ bytes ++ (b :: name ++ behind).takeWhile Byte.isBlank := by
        rw [← hrun (isBlank_indent _ bytes) behind, ← hbytes]
        rfl
      rw [List.self_eq_append_right, List.cons_append, List.takeWhile_cons_of_pos hb] at hself
      cases hself
  · rintro ⟨⟨blanks, behind, rfl, rfl, hblanks, hindented, hends⟩, hblends⟩
    have hindent : indent ⟨b :: name, indented⟩ (blanks ++ (b :: name ++ behind)) = blanks := by
      cases indented with
      | false => exact (hindented.resolve_left Bool.false_ne_true).symm
      | true =>
        have hb : ¬ Byte.isBlank b := fun hb => hblends ⟨rfl, hb⟩
        show (blanks ++ (b :: name ++ behind)).takeWhile Byte.isBlank = blanks
        rw [hrun hblanks, List.cons_append, List.takeWhile_cons_of_neg hb, List.append_nil]
    refine ⟨behind, ?_, hends, ?_⟩
    · rw [hindent]
    · rw [hindent]

end TerminatorLine

namespace Reference

variable {b : Byte} {bytes rest : List Byte} {k : Nat}

/-! ### Units -/

/-- The unit that begins with a byte: the number of bytes behind it, and what the unit stands for.
An escape is one unit, and so is any byte that begins none. -/
def unit (b : Byte) (rest : List Byte) : Nat × List Byte :=
  if b = Byte.ofChar '\\' then ((escape rest).1, (escape rest).2.1) else (0, [b])

/-- What bytes stand for, as a whole. -/
def text : List Byte → List Byte
  | [] => []
  | b :: rest => (unit b rest).2 ++ text (rest.drop (unit b rest).1)
termination_by bytes => bytes.length
decreasing_by
  rw [List.length_drop, List.length_cons]
  omega

/-- An offset at which a unit of the bytes begins, or at which they end, and whether a line of the
text begins there. A line begins behind a unit that is a line feed; whether one begins with the
bytes is told. -/
inductive Boundary : (lineStart : Bool) → (bytes : List Byte) → (n : Nat) → (starts : Bool) → Prop
  | here {lineStart : Bool} {bytes : List Byte} : Boundary lineStart bytes 0 lineStart
  | behind {lineStart starts : Bool} {b : Byte} {rest : List Byte} {n : Nat}
      (h : Boundary (b == Byte.newline) (rest.drop (unit b rest).1) n starts) :
      Boundary lineStart (b :: rest) (n + ((unit b rest).1 + 1)) starts

/-- A run is told by the bytes up to its end. -/
theorem run_take {p : Byte → Bool} {limit : Nat} (h : (run p limit bytes).length ≤ k) :
    run p limit (bytes.take k) = run p limit bytes := by
  rw [run, List.length_take] at h
  rw [run, run, ← List.take_takeWhile, List.take_take, List.take_eq_take_iff]
  omega

/-- **An escape is told by the bytes up to its end.** -/
theorem escape_take (h : (escape rest).1 ≤ k) : escape (rest.take k) = escape rest := by
  rcases rest with _ | ⟨b, rest⟩
  · rw [List.take_nil]
  rcases k with _ | k
  · -- An escape has a byte unless there is none.
    have hdigit : Byte.isOctal b → (run Byte.isOctal 3 (b :: rest)).length ≠ 0 := by
      intro hb
      simp [run, hb]
    simp only [escape] at h
    grind
  have hoctal : (run Byte.isOctal 3 (b :: rest)).length ≤ k + 1 →
      run Byte.isOctal 3 (b :: rest.take k) = run Byte.isOctal 3 (b :: rest) := run_take
  have hhexadecimal : (run Byte.isHexadecimal 2 rest).length ≤ k →
      run Byte.isHexadecimal 2 (rest.take k) = run Byte.isHexadecimal 2 rest := run_take
  rw [List.take_succ_cons]
  simp only [escape] at h ⊢
  split_ifs at h ⊢ with hname hline hdigit hx hC hshort hlong hlong hc
  · rfl
  · rfl
  · rw [hoctal h]
  · rw [hhexadecimal (by grind)]
  · rfl
  -- The bytes of a control escape are looked at one by one.
  · rcases rest with _ | ⟨c, _ | ⟨e, rest⟩⟩ <;> rcases k with _ | k <;> simp_all
  · rcases rest with _ | ⟨c, rest⟩ <;> rcases k with _ | k <;> simp_all
  · rcases rest with _ | ⟨c, _ | ⟨e, rest⟩⟩ <;> rcases k with _ | _ | k <;> simp_all
  · rcases rest with _ | ⟨c, rest⟩ <;> rcases k with _ | k <;> simp_all
  · rfl

/-- **A unit is told by the bytes up to its end.** -/
theorem unit_take (h : (unit b rest).1 ≤ k) : unit b (rest.take k) = unit b rest := by
  rw [unit] at h
  rw [unit, unit]
  split at h
  · rename_i hb
    rw [if_pos hb, if_pos hb, escape_take h]
  · rename_i hb
    rw [if_neg hb, if_neg hb]

/-- What the bytes up to behind the first unit stand for. -/
theorem text_take_cons (b : Byte) (rest : List Byte) (n : Nat) :
    text ((b :: rest).take ((unit b rest).1 + 1 + n))
      = (unit b rest).2 ++ text ((rest.drop (unit b rest).1).take n) := by
  rw [Nat.add_right_comm, List.take_succ_cons, text, unit_take (Nat.le_add_right _ n),
    List.drop_take, Nat.add_sub_cancel_left]

/-! ### Ends of the body -/

/-- Why a body ends in front of bytes, if a line of the text begins there or not: with the line that
closes it, or else at an introducer or with the script. Which bytes begin with that line is given by
`closes`. -/
inductive Stops (closes : List Byte → Nat → Prop) (starts : Bool) (bytes : List Byte) : Stop → Prop
  | closed {n : Nat} (hstarts : starts) (hcloses : closes bytes n) :
      Stops closes starts bytes (.closed n)
  | interpolation (hopen : ¬ (starts ∧ ∃ n, closes bytes n)) (hintroduces : introduces bytes) :
      Stops closes starts bytes .interpolation
  | endOfInput (hopen : ¬ (starts ∧ ∃ n, closes bytes n)) (hends : bytes = []) :
      Stops closes starts bytes .endOfInput

/-- The offset `e` is the first boundary at which a body ends, and `stop` is why it does. -/
structure StopsFirst (closes : List Byte → Nat → Prop) (lineStart : Bool) (bytes : List Byte)
    (e : Nat) (stop : Stop) : Prop where
  stops : ∃ starts, Boundary lineStart bytes e starts ∧ Stops closes starts (bytes.drop e) stop
  first : ∀ m < e, ∀ starts, Boundary lineStart bytes m starts →
    ∀ stop', ¬ Stops closes starts (bytes.drop m) stop'

end Reference

/-! ### Passages -/

namespace Style

variable {line : TerminatorLine} {lineStart : Bool} {bytes : List Byte}
  {closes : List Byte → Nat → Prop}

/-- The pieces of decoded lines are their units. -/
theorem unit_eq_piece (line : TerminatorLine) (b : Byte) (rest : List Byte) :
    Reference.unit b rest = (((decodedLines line).piece b rest).more,
      ((decodedLines line).piece b rest).value.toList) := by
  rw [Reference.unit, piece]
  by_cases hb : b = Byte.ofChar '\\'
  · rw [if_pos hb, if_pos (beq_iff_eq.mpr hb), Escape.read_eq_reference]
  · rw [if_neg hb, if_neg (fun h => hb (beq_iff_eq.mp h))]
    rfl

/-- Decoded lines stop where something ends the body, if it is not the end of the script. -/
theorem stops_of_stop? (hline : ∀ bytes n, line.read? bytes = some n ↔ closes bytes n) {stop : Stop}
    (h : (decodedLines line).stop? lineStart bytes = some stop) :
    Reference.Stops closes lineStart bytes stop := by
  rw [stop?, close?] at h
  split at h
  · rename_i n hclosed
    cases h
    split at hclosed
    · rename_i hstart
      exact .closed hstart ((hline bytes n).mp hclosed)
    · cases hclosed
  · rename_i hopen
    split at h
    · rename_i hintroduces
      cases h
      refine .interpolation ?_ ?_
      · rintro ⟨hstart, n, hcloses⟩
        rw [if_pos hstart, (hline bytes n).mpr hcloses] at hopen
        cases hopen
      · simpa [decodes, Introducer.isSome_read?] using hintroduces
    · cases h

/-- Where decoded lines go on, nothing closes the body, and no introducer begins. -/
theorem open_of_stop? (hline : ∀ bytes n, line.read? bytes = some n ↔ closes bytes n)
    (h : (decodedLines line).stop? lineStart bytes = none) :
    ¬ (lineStart ∧ ∃ n, closes bytes n) ∧ ¬ Reference.introduces bytes := by
  rw [stop?, close?] at h
  split at h
  · cases h
  · rename_i hopen
    split at h
    · cases h
    · rename_i hintroduces
      refine ⟨?_, ?_⟩
      · rintro ⟨hstart, n, hcloses⟩
        rw [if_pos hstart, (hline bytes n).mpr hcloses] at hopen
        cases hopen
      · simpa [decodes, Introducer.isSome_read?] using hintroduces

/-- **A body is read up to the first boundary that ends it.** -/
theorem passage_stopsFirst (hline : ∀ bytes n, line.read? bytes = some n ↔ closes bytes n)
    (lineStart : Bool) (bytes : List Byte) :
    let p := (decodedLines line).passage lineStart bytes
    Reference.StopsFirst closes lineStart bytes p.length p.stop := by
  induction lineStart, bytes using passage_induction (decodedLines line) with
  | stops h =>
    exact ⟨⟨_, .here, stops_of_stop? hline h⟩, fun m hm => absurd hm (Nat.not_lt_zero m)⟩
  | ends h =>
    exact ⟨⟨_, .here, .endOfInput (open_of_stop? hline h).1 rfl⟩,
      fun m hm => absurd hm (Nat.not_lt_zero m)⟩
  | @step lineStart b rest h ih =>
    have hmore : (Reference.unit b rest).1 = ((decodedLines line).piece b rest).more :=
      congrArg Prod.fst (unit_eq_piece line b rest)
    have hdrop : ∀ n, (b :: rest).drop (n + ((Reference.unit b rest).1 + 1))
        = (rest.drop (Reference.unit b rest).1).drop n := by
      intro n
      rw [← Nat.add_assoc, List.drop_succ_cons, List.drop_drop, Nat.add_comm n]
    rw [← hmore] at ih ⊢
    have hlength : ∀ p : Passage, (p.behind ((decodedLines line).piece b rest)).length
        = p.length + ((Reference.unit b rest).1 + 1) := by
      intro p
      rw [hmore, Nat.add_comm]
      rfl
    obtain ⟨⟨starts, hboundary, hstops⟩, hfirst⟩ := ih
    constructor
    · refine ⟨starts, ?_, ?_⟩
      · rw [hlength]
        exact .behind hboundary
      · rw [hlength, hdrop]
        exact hstops
    · rw [hlength]
      intro m hm starts hm' stop'
      cases hm' with
      | here =>
        intro hstop
        obtain ⟨hopen, hintroduces⟩ := open_of_stop? hline h
        cases hstop with
        | closed hstarts hcloses => exact hopen ⟨hstarts, _, hcloses⟩
        | interpolation hopen hintroduces' => exact hintroduces hintroduces'
        | endOfInput hopen hends => cases hends
      | @behind _ _ _ _ n hn =>
        rw [hdrop]
        exact hfirst n (Nat.lt_of_add_lt_add_right hm) starts hn stop'

/-- **A body stands for what its units stand for.** -/
theorem text_passage (line : TerminatorLine) (lineStart : Bool) (bytes : List Byte) :
    let p := (decodedLines line).passage lineStart bytes
    p.text = Reference.text (bytes.take p.length) := by
  induction lineStart, bytes using passage_induction (decodedLines line) with
  | stops h => exact Reference.text.eq_1.symm
  | ends h => exact Reference.text.eq_1.symm
  | @step lineStart b rest h ih =>
    have hmore : (Reference.unit b rest).1 = ((decodedLines line).piece b rest).more :=
      congrArg Prod.fst (unit_eq_piece line b rest)
    have hvalue : (Reference.unit b rest).2 = ((decodedLines line).piece b rest).value.toList :=
      congrArg Prod.snd (unit_eq_piece line b rest)
    rw [← hmore] at ih ⊢
    show _ ++ _ = Reference.text ((b :: rest).take (_ + 1 + _))
    rw [← hmore, Reference.text_take_cons, ← ih, hvalue]

end Style

end ScriptLexer
