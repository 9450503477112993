import ScriptLexer.Proofs.Lexeme.Spacing
import ScriptLexer.Proofs.Text.Stop

/-!
# Text that ends in front of a space

A piece of text that ends in front of the last byte known is decided by the bytes that are known: an
escape looks at no byte behind those that it takes but one. So a passage that ends in front of a
space reads the same whatever follows, with one exception. Text that is closed by a line of its own
looks for that line wherever a line begins, and the line may have spaces in it; so with other spaces
the text may be closed earlier, by a line that reaches over the place where the space stood.

## Main definitions

* `Passage.Overruns` — a passage is closed by bytes that reach over a place

## Main results

* `Style.passage_spaced` — a passage that ends in front of a space
-/

namespace ScriptLexer

variable {front x y : List Byte}

/-! ### Pieces -/

theorem takeWhile_take_append {p : Byte → Bool} {n : Nat}
    (h : (((front ++ x).take n).takeWhile p).length < front.length) (y : List Byte) :
    ((front ++ y).take n).takeWhile p = ((front ++ x).take n).takeWhile p := by
  induction front generalizing n with
  | nil => cases h
  | cons b front ih =>
    cases n with
    | zero => rfl
    | succ n =>
      rw [List.cons_append, List.take_succ_cons, List.takeWhile_cons] at h
      rw [List.cons_append, List.cons_append, List.take_succ_cons, List.take_succ_cons,
        List.takeWhile_cons, List.takeWhile_cons]
      split at h
      · rename_i hb
        rw [if_pos hb, if_pos hb, ih (Nat.lt_of_succ_lt_succ h)]
      · rename_i hb
        rw [if_neg hb, if_neg hb]

namespace Escape

theorem octal_append (h : (octal (front ++ x)).more < front.length) (y : List Byte) :
    octal (front ++ y) = octal (front ++ x) := by
  rw [octal, octal, takeWhile_take_append h y]

theorem hexadecimal_append (h : (hexadecimal (front ++ x)).more < front.length + 1)
    (y : List Byte) : hexadecimal (front ++ y) = hexadecimal (front ++ x) := by
  rcases front with _ | ⟨a, _ | ⟨b, front⟩⟩
  · have hpos : 0 < (hexadecimal x).more := by
      rw [hexadecimal.eq_def]
      repeat' split
      all_goals exact Nat.succ_pos _
    exact absurd h (Nat.not_lt.mpr hpos)
  · cases ha : Byte.hexValue? a with
    | none => simp [hexadecimal, ha]
    | some v =>
      have hmore : 2 ≤ (hexadecimal (a :: x)).more := by
        simp only [hexadecimal, ha]
        split
        · exact Nat.le_succ 2
        · exact Nat.le_refl 2
        · contradiction
      exact absurd h (Nat.not_lt.mpr hmore)
  · rfl

theorem controlled_append {more : Nat}
    (h : (controlled more (front ++ x)).more < front.length + more) (y : List Byte) :
    controlled more (front ++ y) = controlled more (front ++ x) := by
  cases front with
  | nil =>
    have hmore : more ≤ (controlled more x).more := by
      cases x
      · exact Nat.le_refl more
      · exact Nat.le_succ more
    rw [List.length_nil, Nat.zero_add] at h
    exact absurd h (Nat.not_lt.mpr hmore)
  | cons b front => rfl

theorem longControl_append (h : (longControl (front ++ x)).more < front.length + 1)
    (y : List Byte) : longControl (front ++ y) = longControl (front ++ x) := by
  cases front with
  | nil =>
    have hpos : 0 < (longControl x).more := by
      rw [longControl.eq_def]
      split
      · rw [controlled.eq_def]
        split <;> exact Nat.succ_pos _
      · exact Nat.one_pos
    exact absurd h (Nat.not_lt.mpr hpos)
  | cons b front =>
    by_cases hb : b = 0x2D
    · subst hb
      exact controlled_append h y
    · simp [longControl, hb]

/-- An escape that ends in front of the last byte is the same if the bytes go on. -/
theorem read_append (h : (read (front ++ x)).more < front.length) (y : List Byte) :
    read (front ++ y) = read (front ++ x) := by
  cases front with
  | nil => cases h
  | cons b front =>
    revert h
    simp only [List.cons_append, read]
    -- Each test is of the first byte, so it comes out alike.
    split
    · exact fun _ => rfl
    split
    · exact fun _ => rfl
    split
    · intro h
      show octal ((b :: front) ++ y) = octal ((b :: front) ++ x)
      exact octal_append h y
    split
    · exact fun h => hexadecimal_append h y
    split
    · exact fun h => longControl_append h y
    split
    · exact fun h => controlled_append h y
    · exact fun _ => rfl

end Escape

namespace Style

variable {style : Style} {lineStart : Bool}

/-- A piece that ends in front of the last byte is the same if the bytes go on. -/
theorem piece_append {b : Byte} (h : (style.piece b (front ++ x)).more < front.length)
    (y : List Byte) : style.piece b (front ++ y) = style.piece b (front ++ x) := by
  cases style with
  | verbatim close =>
    cases front with
    | nil => cases h
    | cons c front => rfl
  | verbatimLines close => rfl
  | decoded close | decodedLines close =>
    rw [piece] at h ⊢
    rw [piece]
    split at h
    · rename_i hb
      rw [if_pos hb, if_pos hb, Escape.read_append h y]
    · rename_i hb
      rw [if_neg hb, if_neg hb]

/-! ### Where a text stops -/

/-- What closes a text in front of the space closes it whatever follows. -/
theorem close?_spaced {n : Nat} (hx : Spaced x) (hy : Spaced y)
    (h : style.close? lineStart (front ++ x) = some n) (hn : n ≤ front.length) :
    front ≠ [] ∧ style.close? lineStart (front ++ y) = some n := by
  have hbyte : ∀ close : Byte, (if (front ++ x).head? = some close then some 1 else none) = some n →
      front ≠ [] ∧ (if (front ++ y).head? = some close then some 1 else none) = some n := by
    intro close h
    cases front with
    | nil =>
      split at h
      · cases h
        cases hn
      · cases h
    | cons b front => exact ⟨List.cons_ne_nil b front, h⟩
  have hline : ∀ close : TerminatorLine,
      (if lineStart then close.read? (front ++ x) else none) = some n →
      front ≠ [] ∧ (if lineStart then close.read? (front ++ y) else none) = some n := by
    intro close h
    split at h
    · rename_i hstart
      refine ⟨?_, ?_⟩
      · rintro rfl
        exact absurd (TerminatorLine.read?_pos hx h) (Nat.not_lt.mpr hn)
      · rw [if_pos hstart, TerminatorLine.read?_spaced hx hy h hn]
    · cases h
  cases style with
  | verbatim close => exact hbyte close h
  | decoded close => exact hbyte close h
  | verbatimLines close => exact hline close h
  | decodedLines close => exact hline close h

/-- Only a line closes a text and reaches over the first byte. -/
theorem endsWithLine_of_close? {rest : List Byte} {n : Nat}
    (h : style.close? lineStart rest = some n) (hn : 1 < n) : style.endsWithLine := by
  cases style with
  | verbatim close | decoded close =>
    rw [close?] at h
    split at h
    · cases h
      exact absurd hn (Nat.lt_irrefl 1)
    · cases h
  | verbatimLines close | decodedLines close => rfl

theorem stop?_of_close? {rest : List Byte} {n : Nat} (h : style.close? lineStart rest = some n) :
    style.stop? lineStart rest = some (.closed n) := by
  rw [stop?, h]

end Style

/-- The text is closed by bytes that reach over the first `n`. -/
def Passage.Overruns (n : Nat) (p : Passage) : Prop :=
  (∃ k, p.stop = .closed k) ∧ n < p.length + p.stop.length

namespace Style

/-- If nothing that closes the text reaches over the space, the text stops alike whatever follows,
or a line closes it that reaches over the space then. -/
theorem stop?_spaced (style : Style) (lineStart : Bool) (hx : Spaced x) (hy : Spaced y)
    (hfront : front ≠ [])
    (h : ∀ n, style.close? lineStart (front ++ x) = some n → n ≤ front.length) :
    style.stop? lineStart (front ++ y) = style.stop? lineStart (front ++ x)
      ∨ style.endsWithLine ∧ (style.passage lineStart (front ++ y)).Overruns front.length := by
  cases hclose : style.close? lineStart (front ++ x) with
  | some n =>
    have hsame := (close?_spaced hx hy hclose (h n hclose)).2
    exact .inl (by rw [stop?_of_close? hclose, stop?_of_close? hsame])
  | none =>
    cases hother : style.close? lineStart (front ++ y) with
    | none => exact .inl (by rw [stop?, stop?, hclose, hother,
        Introducer.read?_congr (hx.sameWord front hy)])
    | some n =>
      have hfar : front.length < n := by
        refine Nat.lt_of_not_le fun hn => ?_
        rw [(close?_spaced hy hx hother hn).2] at hclose
        cases hclose
      have hpos := List.length_pos_iff.mpr hfront
      refine .inr ⟨endsWithLine_of_close? hother (by omega), ?_⟩
      rw [passage_of_stop (stop?_of_close? hother)]
      exact ⟨⟨n, rfl⟩, by simpa [Passage.empty, Stop.length] using hfar⟩

/-- **A passage that ends in front of a space** is the same whatever follows, unless it is then
closed by a line that reaches over the space. -/
theorem passage_spaced (style : Style) (lineStart : Bool) (hx : Spaced x) (hy : Spaced y)
    (h : (style.passage lineStart (front ++ x)).length
      + (style.passage lineStart (front ++ x)).stop.length ≤ front.length) :
    front ≠ [] ∧ (style.passage lineStart (front ++ y) = style.passage lineStart (front ++ x)
      ∨ style.endsWithLine ∧ (style.passage lineStart (front ++ y)).Overruns front.length) := by
  generalize hrest : front ++ x = rest at h ⊢
  induction lineStart, rest using passage_induction style generalizing front with
  | @stops lineStart rest stop hstop =>
    subst hrest
    simp only [Passage.empty, Nat.zero_add] at h
    have hfront : front ≠ [] := by
      rcases stop?_cases hstop with ⟨n, rfl, hn⟩ | ⟨-, -, hsome⟩
      · exact (close?_spaced hx hy hn h).1
      · rintro rfl
        cases hx <;> cases hsome
    have hclose : ∀ n, style.close? lineStart (front ++ x) = some n → n ≤ front.length := by
      intro n hn
      rw [stop?_of_close? hn] at hstop
      cases hstop
      exact h
    exact ⟨hfront, (stop?_spaced style lineStart hx hy hfront hclose).imp_left fun hsame =>
      passage_of_stop (hsame.trans hstop)⟩
  | ends hstop => exact absurd (List.append_eq_nil_iff.mp hrest).2 hx.ne_nil
  | @step lineStart b rest hstop ih =>
    simp only [Passage.behind, Piece.length] at h
    cases front with
    | nil =>
      rw [List.length_nil] at h
      omega
    | cons c front =>
      rw [List.cons_append, List.cons.injEq] at hrest
      obtain ⟨rfl, rfl⟩ := hrest
      rw [List.length_cons] at h
      have hmore : (style.piece c (front ++ x)).more ≤ front.length := by omega
      obtain ⟨hbehind, hpassage⟩ := ih (List.drop_append_of_le_length hmore).symm
        (by rw [List.length_drop]; omega)
      have hlt : (style.piece c (front ++ x)).more < front.length := by
        have hpos := List.length_pos_iff.mpr hbehind
        rw [List.length_drop] at hpos
        omega
      have hclose : ∀ n, style.close? lineStart (c :: (front ++ x)) = some n →
          n ≤ (c :: front).length := by
        intro n hn
        rw [stop?_of_close? hn] at hstop
        cases hstop
      refine ⟨List.cons_ne_nil c front, ?_⟩
      rcases stop?_spaced style lineStart hx hy (List.cons_ne_nil c front) hclose with hsame | hover
      · rw [List.cons_append, List.cons_append] at hsame
        rw [List.cons_append, passage_cons (hsame.trans hstop), piece_append hlt y,
          List.drop_append_of_le_length hmore]
        refine hpassage.imp (fun hsame => ?_) (And.imp_right ?_)
        · rw [hsame]
        · rintro ⟨hclosed, hfar⟩
          refine ⟨hclosed, ?_⟩
          rw [List.length_drop] at hfar
          simp only [Passage.behind, Piece.length, List.length_cons]
          omega
      · exact .inr hover

end Style

end ScriptLexer
