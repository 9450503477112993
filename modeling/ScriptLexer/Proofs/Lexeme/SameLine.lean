import ScriptLexer.Proofs.Lexeme.SameWord

/-!
# What a line decides

Most scanners look no further than the end of a word. The markers that stand on lines of their own,
layout, and the openers of heredocs are the others, and none of them looks past the end of the line.
`SameLine x y` says that two lists of bytes agree up to their first line feed; each scanner of the
lexer then answers alike on both. Block comments are the one exception: they are closed by a later
line, so it takes more than the line to tell whether one is closed.

A script that goes on behind the end of a line has the same lines up to there. So what is read on a
line of it does not depend on what it goes on with.

## Main definitions

* `SameLine` — two lists of bytes agree up to their first line feed

## Main results

* `Lexeme.read_congr` — the lexeme that is read at a byte is decided by the line
* `Gap.read?_append` — layout is the same if the script goes on behind the end of a line
-/

namespace ScriptLexer

/-- Two lists of bytes have the same bytes up to the first line feed, and both have it or
neither. -/
inductive SameLine : List Byte → List Byte → Prop
  | nil : SameLine [] []
  | lineFeed (x y : List Byte) : SameLine (Byte.newline :: x) (Byte.newline :: y)
  | cons (b : Byte) {x y : List Byte} (h : SameLine x y) : SameLine (b :: x) (b :: y)

theorem Line.startsBehind_drop {rest : List Byte} (h : startsBehind rest) (n : Nat) :
    startsBehind (rest.drop n) := by
  rw [startsBehind, List.getLast?_drop]
  split
  · rfl
  · exact h

namespace SameLine

variable {x y : List Byte}

theorem refl (x : List Byte) : SameLine x x := by
  induction x with
  | nil => exact .nil
  | cons b x ih => exact ih.cons b

/-- What stands behind the end of a line does not matter. -/
theorem append (hne : x ≠ []) (h : Line.startsBehind x) (y : List Byte) : SameLine x (x ++ y) := by
  induction x with
  | nil => exact absurd rfl hne
  | cons b x ih =>
    cases x with
    | nil =>
      obtain rfl : b = Byte.newline := by simpa [Line.startsBehind] using h
      exact .lineFeed [] y
    | cons c x =>
      rw [Line.startsBehind, List.getLast?_cons_cons] at h
      exact (ih (List.cons_ne_nil c x) h).cons b

theorem head? (h : SameLine x y) : x.head? = y.head? := by
  cases h <;> rfl

theorem of_cons {b : Byte} (hb : b ≠ Byte.newline) (h : SameLine (b :: x) (b :: y)) :
    SameLine x y := by
  cases h with
  | lineFeed _ _ => exact absurd rfl hb
  | cons _ h => exact h

/-- Lists of bytes that agree up to a line feed agree up to the end of a word. -/
theorem sameWord (h : SameLine x y) : SameWord x y := by
  induction h with
  | nil => exact .ends rfl rfl
  | lineFeed x y => exact .ends rfl rfl
  | cons b h ih => exact ih.cons b

/-! ### Runs -/

section Runs

variable {p : Byte → Bool}

theorem takeWhile (hp : p Byte.newline = false) (h : SameLine x y) :
    x.takeWhile p = y.takeWhile p := by
  induction h with
  | nil => rfl
  | lineFeed x y => simp [hp]
  | cons b h ih => simp [List.takeWhile_cons, ih]

theorem takeWhile_take (hp : p Byte.newline = false) (n : Nat) (h : SameLine x y) :
    (x.take n).takeWhile p = (y.take n).takeWhile p := by
  induction h generalizing n with
  | nil => rfl
  | lineFeed x y => cases n <;> simp [hp]
  | cons b h ih =>
    cases n with
    | zero => rfl
    | succ n => simp [List.takeWhile_cons, ih]

theorem drop_takeWhile (hp : p Byte.newline = false) (h : SameLine x y) :
    SameLine (x.drop (x.takeWhile p).length) (y.drop (x.takeWhile p).length) := by
  induction h with
  | nil => exact .nil
  | lineFeed x y => simpa [hp] using .lineFeed x y
  | @cons b x y h ih =>
    by_cases hb : p b
    · simpa [hb] using ih
    · simpa [hb] using h.cons b

end Runs

end SameLine

variable {x y : List Byte}

/-! ### Markers -/

namespace Line

theorem endsHere_congr (h : SameLine x y) : endsHere x = endsHere y := by
  cases h with
  | nil | lineFeed _ _ => rfl
  | cons b h =>
    by_cases hnl : b = 0x0A
    · subst hnl
      rfl
    by_cases hcr : b = 0x0D
    · subst hcr
      cases h with
      | nil | lineFeed _ _ => rfl
      | cons c h =>
        by_cases hc : c = 0x0A
        · subst hc
          rfl
        · simp [endsHere, hc]
    · simp [endsHere, hnl, hcr]

/-- Whether a marker is found, and what is asked of the bytes behind it, is decided by the line. -/
theorem any_behind?_congr {p : List Byte → Bool} (hp : ∀ {x y}, SameLine x y → p x = p y)
    {marker : List Byte} (hmarker : Byte.newline ∉ marker) (h : SameLine x y) :
    (behind? marker x).any p = (behind? marker y).any p := by
  induction marker generalizing x y with
  | nil => exact hp h
  | cons m marker ih =>
    rw [List.mem_cons, not_or] at hmarker
    have hm : (m == Byte.newline) = false := by simpa using Ne.symm hmarker.1
    cases h with
    | nil => rfl
    | lineFeed x y => simp [behind?, hm]
    | cons b h =>
      rw [behind?, behind?]
      split
      · exact ih hmarker.2 h
      · rfl

theorem isEndMarker_congr (h : SameLine x y) : isEndMarker x = isEndMarker y :=
  any_behind?_congr endsHere_congr (by decide) h

theorem length_congr (h : SameLine x y) : length x = length y :=
  congrArg List.length (h.takeWhile (by decide))

end Line

theorem TerminatorLine.read?_congr {line : TerminatorLine} (hline : Byte.newline ∉ line.identifier)
    (h : SameLine x y) : line.read? x = line.read? y := by
  have hindent : SameLine (x.drop (x.takeWhile Byte.isBlank).length)
      (y.drop (x.takeWhile Byte.isBlank).length) := h.drop_takeWhile (by decide)
  simp only [read?, ← h.takeWhile (p := Byte.isBlank) (by decide)]
  cases line.indented with
  | true => simp only [if_true, Line.any_behind?_congr Line.endsHere_congr hline hindent]
  | false =>
    simp only [Bool.false_eq_true, if_false, List.drop_zero,
      Line.any_behind?_congr Line.endsHere_congr hline h]

theorem Gap.joinedLine?_congr (h : SameLine x y) : joinedLine? x = joinedLine? y := by
  cases h with
  | nil | lineFeed _ _ => rfl
  | cons b h =>
    by_cases hnl : b = 0x0A
    · subst hnl
      rfl
    by_cases hcr : b = 0x0D
    · subst hcr
      cases h with
      | nil | lineFeed _ _ => rfl
      | cons c h =>
        by_cases hc : c = 0x0A
        · subst hc
          rfl
        · simp [joinedLine?, hc]
    · simp [joinedLine?, hnl, hcr]

/-! ### Layout -/

theorem Line.length_lt {rest : List Byte} (hne : rest ≠ []) (h : startsBehind rest) :
    length rest < rest.length := by
  obtain ⟨line, hline, hlength, rfl | ⟨behind, rfl⟩⟩ := exists_line rest
  · have hlast := List.getLast?_eq_some_getLast hne
    have hnewline : rest.getLast hne = Byte.newline := by
      rw [startsBehind, hlast] at h
      exact eq_of_beq h
    exact absurd (hnewline ▸ List.getLast_mem hne) hline
  · rw [← hlength, List.length_append, List.length_cons]
    omega

theorem Line.lengthWithEnd_append {rest : List Byte} (hne : rest ≠ []) (h : startsBehind rest)
    (back : List Byte) : lengthWithEnd (rest ++ back) = lengthWithEnd rest := by
  have hlt := length_lt hne h
  rw [lengthWithEnd, lengthWithEnd, ← length_congr (.append hne h back), List.length_append]
  omega

/-- A block comment that is closed is closed where it was, if the script goes on. -/
theorem BlockComment.length?_append {rest : List Byte} {n : Nat} (hrest : Line.startsBehind rest)
    (h : length? rest = some n) (back : List Byte) : length? (rest ++ back) = some n := by
  induction rest generalizing n with
  | nil => cases h
  | cons b rest ih =>
    -- The line that closes the comment is not empty, so the bytes go on behind `b`.
    have hne : rest ≠ [] := by
      rintro rfl
      rw [length?, show Line.hasWord closer [] = false from rfl, Bool.and_false] at h
      cases h
    have hbehind : Line.startsBehind rest := Line.startsBehind_drop hrest 1
    rw [length?] at h
    rw [List.cons_append, length?,
      ← Line.hasWord_congr (by decide) (SameLine.append hne hbehind back).sameWord]
    split at h
    · rename_i hclose
      rw [if_pos hclose, Line.lengthWithEnd_append hne hbehind]
      exact h
    · rename_i hopen
      obtain ⟨m, hm, rfl⟩ := Option.map_eq_some_iff.mp h
      rw [if_neg hopen, ih hbehind hm]
      rfl

/-- **A piece of layout is the same if the script goes on,** unless it is a block comment that was
not closed. -/
theorem Gap.read?_append {lineStart : Bool} {rest : List Byte} (hne : rest ≠ [])
    (hrest : Line.startsBehind rest)
    (hclosed : read? lineStart rest = none → BlockComment.opensAt lineStart rest = false)
    (back : List Byte) : read? lineStart (rest ++ back) = read? lineStart rest := by
  obtain ⟨b, rest, rfl⟩ := List.exists_cons_of_ne_nil hne
  have hline : SameLine (b :: rest) (b :: (rest ++ back)) := .append hne hrest back
  by_cases hb : b = Byte.newline
  · subst hb
    have hnone : ∀ z, read? lineStart (Byte.newline :: z) = none := fun z => by
      cases lineStart <;> rfl
    rw [List.cons_append, hnone, hnone]
  · have hbehind := hline.of_cons hb
    rw [read?] at hclosed
    rw [List.cons_append, read?, read?, blanks, blanks, comment, comment,
      ← hbehind.takeWhile (by decide), ← Line.length_congr hbehind, ← joinedLine?_congr hbehind,
      ← BlockComment.opensAt_congr lineStart hline.sameWord]
    split
    · rfl
    split
    · rfl
    split
    · rfl
    split
    · rename_i hblank hhash hbackslash hopen
      rw [if_neg hblank, if_neg hhash, if_neg hbackslash, if_pos hopen, hopen] at hclosed
      rw [blockComment?] at hclosed ⊢
      cases hlength : BlockComment.length? rest with
      | none =>
        rw [hlength] at hclosed
        cases hclosed rfl
      | some n =>
        have hlines : Line.startsBehind rest := Line.startsBehind_drop hrest 1
        rw [blockComment?, BlockComment.length?_append hlines hlength, hlength]
    · rfl

/-! ### Heredocs -/

namespace HeredocStart

theorem quoted_congr (indented : Bool) (quote : Byte) (offset : Nat) (h : SameLine x y) :
    quoted indented quote offset x = quoted indented quote offset y := by
  have htake := h.takeWhile (p := fun b => b != quote && b != Byte.newline) (by simp)
  have hdrop := h.drop_takeWhile (p := fun b => b != quote && b != Byte.newline) (by simp)
  simp only [quoted, ← htake, hdrop.head?]

theorem identifier_congr (indented : Bool) (offset : Nat) (h : SameLine x y) :
    identifier indented offset x = identifier indented offset y := by
  cases h with
  | nil | lineFeed _ _ => rfl
  | @cons b x y h =>
    rw [identifier, identifier, quoted_congr indented b offset h,
      (h.cons b).takeWhile (p := Byte.isIdentContinue) (by decide)]

theorem read_congr (h : SameLine x y) : read x = read y := by
  cases h with
  | nil | lineFeed _ _ => rfl
  | @cons b x y h =>
    by_cases hhyphen : b = 0x2D
    · subst hhyphen
      exact identifier_congr _ _ h
    by_cases htilde : b = 0x7E
    · subst htilde
      exact identifier_congr _ _ h
    · have hread : ∀ z, read (b :: z) = identifier false 0 (b :: z) :=
        fun z => by simp [read, hhyphen, htilde]
      rw [hread, hread, identifier_congr _ _ (h.cons b)]

end HeredocStart

/-! ### Lexemes -/

namespace Lexeme

variable (l : Lookback)

theorem less_congr (h : SameLine x y) : less l x = less l y := by
  cases h with
  | nil | lineFeed _ _ => rfl
  | @cons b x y h =>
    have hpunctuation := punctuation_congr 0x3C (h.cons b).sameWord
    by_cases hb : b = 0x3C
    · subst hb
      simp only [less, HeredocStart.read_congr h, hpunctuation]
    · simp [less, hb, hpunctuation]

/-- **What is read at a byte is decided by its line,** unless a block comment opens there. -/
theorem read_congr (lineStart : Bool) {b : Byte} (h : SameLine (b :: x) (b :: y))
    (hopen : BlockComment.opensAt lineStart (b :: x) = false) :
    read l lineStart b x = read l lineStart b y := by
  by_cases hb : b = Byte.newline
  · subst hb
    rfl
  · have hrest := h.of_cons hb
    exact read_sameWord l lineStart hrest.sameWord hopen fun _ => less_congr l hrest

end Lexeme

end ScriptLexer
