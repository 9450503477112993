import ScriptLexer.Proofs.Lexeme.Layout

/-!
# Where a block comment ends

A block comment is searched for its end byte by byte: behind each line feed the closing word is
looked for. Here the search is said of the lines of the script. It stops behind the first line that
begins with the closing word, and there only, and it fails if no later line does.

## Main results

* `BlockComment.wordAt_iff` — the lines behind an offset, by the bytes behind it
* `BlockComment.length?_of_first`, `BlockComment.length?_of_none` — what the search comes to
-/

namespace ScriptLexer.BlockComment

variable {source rest : List Byte} {b : Byte} {s i p : Nat}

/-- Where a block comment opens, by the line that begins there. -/
theorem opensAt_iff (source : List Byte) (s : Nat) :
    opensAt (Line.startsBehind (source.take s)) (source.drop s) ↔ Line.WordAt opener source s := by
  rw [opensAt, Bool.and_eq_true, Line.hasWord_iff]
  rfl

/-- A closing word stands at place `i` of the bytes behind the first, with a line feed in front. -/
def ClosesIn (rest : List Byte) (i : Nat) : Prop :=
  rest[i]? = some Byte.newline ∧ Line.hasWord closer (rest.drop (i + 1))

theorem not_hasWord_nil : ¬ Line.hasWord closer [] := by
  decide

/-- **The search stops behind the first line that closes.** -/
theorem length?_of_first (h : ClosesIn rest i) (hfirst : ∀ j < i, ¬ ClosesIn rest j) :
    length? rest = some (i + 1 + Line.lengthWithEnd (rest.drop (i + 1))) := by
  induction rest generalizing i with
  | nil => cases h.1
  | cons b rest ih =>
    rw [length?]
    cases i with
    | zero =>
      have hb : b = Byte.newline := Option.some.inj h.1
      have hword : Line.hasWord closer rest := h.2
      rw [if_pos (by simp [hb, hword])]
      simp
    | succ i =>
      have hopen : ¬ ClosesIn (b :: rest) 0 := hfirst 0 (Nat.succ_pos i)
      have hlater : ∀ j < i, ¬ ClosesIn rest j := fun j hj => hfirst (j + 1) (Nat.succ_lt_succ hj)
      rw [if_neg, ih h hlater]
      · simp only [Option.map_some, List.drop_succ_cons]
        congr 1
        omega
      · rw [Bool.and_eq_true, beq_iff_eq]
        rintro ⟨rfl, hword⟩
        exact hopen ⟨rfl, hword⟩

/-- **The search fails if no line closes.** -/
theorem length?_of_none (h : ∀ i, ¬ ClosesIn rest i) : length? rest = none := by
  induction rest with
  | nil => rfl
  | cons b rest ih =>
    rw [length?, if_neg, ih fun i => h (i + 1)]
    · rfl
    · rw [Bool.and_eq_true, beq_iff_eq]
      rintro ⟨rfl, hword⟩
      exact h 0 ⟨rfl, hword⟩

/-- **The lines behind an offset,** by the bytes behind the one at the offset. -/
theorem wordAt_iff (hsource : source.drop s = b :: rest) :
    Line.WordAt closer source (s + 1 + (i + 1)) ↔ ClosesIn rest i := by
  have hbehind : source.drop (s + 1) = rest := by
    rw [← List.drop_drop, hsource]
    rfl
  have hdrop : source.drop (s + 1 + (i + 1)) = rest.drop (i + 1) := by
    rw [← List.drop_drop, hbehind]
  have htake : source.take (s + 1 + (i + 1)) = source.take (s + 1) ++ rest.take (i + 1) := by
    rw [List.take_add, hbehind]
  rw [Line.WordAt, hdrop, ← Line.hasWord_iff, ClosesIn]
  refine and_congr_left fun hword => ?_
  -- A word has bytes, so there is one in front of it at place `i`.
  have hi : i < rest.length := by
    by_contra hle
    rw [List.drop_of_length_le (by omega)] at hword
    exact not_hasWord_nil hword
  have hlast : (rest.take (i + 1)).getLast? = some rest[i] := by
    rw [List.take_add_one, List.getElem?_eq_getElem hi]
    exact List.getLast?_concat
  rw [htake, Line.startsBehind, List.getLast?_append, hlast, List.getElem?_eq_getElem hi]
  simp

/-- No line begins right behind another byte than a line feed. -/
theorem not_wordAt_succ (hsource : source.drop s = b :: rest) (hb : b ≠ Byte.newline)
    (word : List Byte) : ¬ Line.WordAt word source (s + 1) := by
  rintro ⟨hstart, -⟩
  have htake : source.take (s + 1) = source.take s ++ [b] := by
    rw [List.take_add, hsource]
    rfl
  rw [htake, Line.startsBehind, List.getLast?_concat] at hstart
  exact hb (eq_of_beq hstart)

/-- A later line that closes begins behind the byte at the offset and the one behind it. -/
theorem exists_place (hsource : source.drop s = b :: rest) (hb : b ≠ Byte.newline)
    (hlater : s < p) (h : Line.WordAt closer source p) :
    ∃ i, p = s + 1 + (i + 1) ∧ ClosesIn rest i := by
  obtain ⟨k, rfl⟩ := Nat.exists_eq_add_of_le hlater
  cases k with
  | zero => exact absurd h (not_wordAt_succ hsource hb closer)
  | succ i => exact ⟨i, rfl, (wordAt_iff hsource).mp h⟩

end ScriptLexer.BlockComment
