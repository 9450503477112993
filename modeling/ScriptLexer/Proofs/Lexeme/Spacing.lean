import ScriptLexer.Proofs.Lexeme.Extent
import ScriptLexer.Proofs.Lexeme.SameLine

/-!
# What stands in front of a space

No scanner looks past a space or a tab that stands behind all that it reads: what it has read is
then the same whatever follows, as long as that begins with a space or a tab again. Most scanners
look no further than a word, and are covered by that. Here are the others, which may take blanks
into what they read: layout, the lines that end heredocs, and the openers of heredocs. Each of them
is said to read the same if it ends in front of the space.

## Main definitions

* `Spaced` — bytes that begin with a space or a tab

## Main results

* `Gap.read?_spaced` — a piece of layout that ends in front of a space
* `TerminatorLine.read?_spaced` — a line that ends a heredoc
* `Lexeme.read_spaced` — a lexeme
-/

namespace ScriptLexer

/-- The bytes begin with a space or a tab. -/
inductive Spaced : List Byte → Prop
  | space (rest : List Byte) : Spaced (0x20 :: rest)
  | tab (rest : List Byte) : Spaced (0x09 :: rest)

variable {front x y : List Byte} {p : Byte → Bool}

namespace Spaced

theorem endsWord (h : Spaced x) : Line.endsWord x := by
  cases h <;> rfl

theorem sameWord (front : List Byte) (hx : Spaced x) (hy : Spaced y) :
    SameWord (front ++ x) (front ++ y) :=
  .append front hx.endsWord hy.endsWord

theorem ne_nil (h : Spaced x) : x ≠ [] := by
  cases h <;> exact List.cons_ne_nil _ _

/-- A run that has spaces in it and does not reach the space ends in front of it. -/
theorem length_takeWhile_lt (hx : Spaced x) (hspace : p 0x20) (htab : p 0x09)
    (h : ((front ++ x).takeWhile p).length ≤ front.length) :
    (front.takeWhile p).length < front.length := by
  rw [List.takeWhile_append] at h
  split at h
  · have hpos : 0 < (x.takeWhile p).length := by
      cases hx
      · simp [hspace]
      · simp [htab]
    rw [List.length_append] at h
    omega
  · rename_i hne
    exact Nat.lt_of_le_of_ne (List.takeWhile_prefix p).length_le hne

end Spaced

/-- A run that ends goes no further if the bytes go on. -/
theorem takeWhile_append_of_lt (h : (front.takeWhile p).length < front.length) (y : List Byte) :
    (front ++ y).takeWhile p = front.takeWhile p := by
  rw [List.takeWhile_append, if_neg (Nat.ne_of_lt h)]

/-! ### Lines -/

namespace Line

theorem endsHere_spaced (front : List Byte) (hx : Spaced x) (hy : Spaced y) :
    endsHere (front ++ x) = endsHere (front ++ y) := by
  rcases front with _ | ⟨b, _ | ⟨c, front⟩⟩
  · cases hx <;> cases hy <;> rfl
  · by_cases hnl : b = 0x0A
    · subst hnl
      rfl
    by_cases hcr : b = 0x0D
    · subst hcr
      cases hx <;> cases hy <;> rfl
    · simp [endsHere, hnl, hcr]
  · by_cases hnl : b = 0x0A
    · subst hnl
      rfl
    by_cases hcrlf : b = 0x0D ∧ c = 0x0A
    · obtain ⟨rfl, rfl⟩ := hcrlf
      rfl
    · have hnone : ∀ rest, endsHere (b :: c :: rest) = false := by
        intro rest
        rw [endsHere.eq_def]
        split
        · contradiction
        · rename_i heq
          exact absurd (List.cons.inj heq).1 hnl
        · rename_i heq
          exact absurd ⟨(List.cons.inj heq).1, (List.cons.inj (List.cons.inj heq).2).1⟩ hcrlf
        · rfl
      rw [List.cons_append, List.cons_append, List.cons_append, List.cons_append, hnone, hnone]

/-- A marker that has no space, or does not reach the one behind the bytes, is found alike. -/
theorem any_behind?_spaced {marker : List Byte} (hx : Spaced x) (hy : Spaced y)
    (h : (0x20 ∉ marker ∧ 0x09 ∉ marker) ∨ marker.length ≤ front.length) :
    (behind? marker (front ++ x)).any endsHere = (behind? marker (front ++ y)).any endsHere := by
  induction marker generalizing front with
  | nil => exact endsHere_spaced front hx hy
  | cons m marker ih =>
    cases front with
    | nil =>
      have hmarker := h.resolve_right (Nat.not_succ_le_zero _)
      have hspace : (m == 0x20) = false := by simpa using Ne.symm (List.ne_of_not_mem_cons hmarker.1)
      have htab : (m == 0x09) = false := by simpa using Ne.symm (List.ne_of_not_mem_cons hmarker.2)
      cases hx <;> cases hy <;> simp [behind?, hspace, htab]
    | cons b front =>
      rw [List.cons_append, List.cons_append, behind?, behind?]
      split
      · refine ih (h.imp (fun h => ?_) Nat.le_of_succ_le_succ)
        exact ⟨fun hmem => h.1 (.tail m hmem), fun hmem => h.2 (.tail m hmem)⟩
      · rfl

theorem isEndMarker_spaced (front : List Byte) (hx : Spaced x) (hy : Spaced y) :
    isEndMarker (front ++ x) = isEndMarker (front ++ y) :=
  any_behind?_spaced hx hy (.inl ⟨by decide, by decide⟩)

end Line

/-- A line that ends a heredoc in front of the space ends it whatever follows. -/
theorem TerminatorLine.read?_spaced {line : TerminatorLine} {n : Nat} (hx : Spaced x)
    (hy : Spaced y) (h : line.read? (front ++ x) = some n) (hn : n ≤ front.length) :
    line.read? (front ++ y) = some n := by
  have hmarker : ∀ indent, indent + line.identifier.length ≤ front.length →
      (Line.behind? line.identifier ((front ++ x).drop indent)).any Line.endsHere
        = (Line.behind? line.identifier ((front ++ y).drop indent)).any Line.endsHere := by
    intro indent hle
    rw [List.drop_append_of_le_length (by omega), List.drop_append_of_le_length (by omega)]
    refine Line.any_behind?_spaced hx hy (.inr ?_)
    rw [List.length_drop]
    omega
  cases hindented : line.indented with
  | false =>
    simp only [read?, hindented, Bool.false_eq_true, if_false] at h ⊢
    split at h
    · cases h
      rw [← hmarker 0 hn, if_pos ‹_›]
    · cases h
  | true =>
    simp only [read?, hindented, if_true] at h ⊢
    split at h
    · rename_i hfound
      cases h
      have hlt := hx.length_takeWhile_lt (p := Byte.isBlank) rfl rfl (Nat.le_of_add_right_le hn)
      simp only [takeWhile_append_of_lt hlt] at hn hfound ⊢
      rw [← hmarker _ hn, if_pos hfound]
    · cases h

/-- A line that ends a heredoc and begins with the space has a byte. -/
theorem TerminatorLine.read?_pos {line : TerminatorLine} {n : Nat} (hx : Spaced x)
    (h : line.read? x = some n) : 0 < n := by
  simp only [read?] at h
  generalize (if line.indented then (x.takeWhile Byte.isBlank).length else 0) = indent at h
  split at h
  · rename_i hfound
    cases h
    refine Nat.pos_of_ne_zero fun hzero => ?_
    obtain ⟨rfl, hidentifier⟩ := Nat.add_eq_zero_iff.mp hzero
    rw [List.drop_zero, List.eq_nil_of_length_eq_zero hidentifier] at hfound
    cases hx <;> cases hfound
  · cases h

/-! ### Layout -/

theorem Gap.joinedLine?_spaced (front : List Byte) (hx : Spaced x) (hy : Spaced y) :
    joinedLine? (front ++ x) = joinedLine? (front ++ y) := by
  rcases front with _ | ⟨b, _ | ⟨c, front⟩⟩
  · cases hx <;> cases hy <;> rfl
  · by_cases hnl : b = 0x0A
    · subst hnl
      rfl
    by_cases hcr : b = 0x0D
    · subst hcr
      cases hx <;> cases hy <;> rfl
    · simp [joinedLine?, hnl, hcr]
  · by_cases hnl : b = 0x0A
    · subst hnl
      rfl
    by_cases hcr : b = 0x0D
    · subst hcr
      by_cases hc : c = 0x0A
      · subst hc
        rfl
      · simp [joinedLine?, hc]
    · simp [joinedLine?, hnl, hcr]

/-- A line that ends in front of the space does not depend on what follows. -/
theorem Line.length_spaced (hx : Spaced x) (h : length (front ++ x) ≤ front.length) (y : List Byte) :
    length (front ++ y) = length (front ++ x) ∧ length (front ++ x) < front.length := by
  have hlt := hx.length_takeWhile_lt (p := (· != Byte.newline)) rfl rfl h
  rw [length, length, takeWhile_append_of_lt hlt, takeWhile_append_of_lt hlt]
  exact ⟨rfl, hlt⟩

/-- A block comment that is closed in front of the space is closed there whatever follows. -/
theorem BlockComment.length?_spaced {n : Nat} (hx : Spaced x) (hy : Spaced y)
    (h : length? (front ++ x) = some n) (hn : n ≤ front.length) :
    length? (front ++ y) = some n := by
  induction front generalizing n with
  | nil =>
    have hpos : ∀ {rest n}, length? rest = some n → 0 < n := by
      intro rest n h
      cases rest with
      | nil => cases h
      | cons b rest =>
        rw [length?] at h
        split at h
        · cases h
          omega
        · obtain ⟨m, -, rfl⟩ := Option.map_eq_some_iff.mp h
          omega
    exact absurd (hpos h) (Nat.not_lt.mpr hn)
  | cons b front ih =>
    rw [List.cons_append, length?] at h
    rw [List.cons_append, length?, ← Line.hasWord_congr (by decide) (hx.sameWord front hy)]
    rw [List.length_cons] at hn
    split at h
    · rename_i hclose
      cases h
      have hpos := List.length_pos_iff.mpr hx.ne_nil
      rw [Line.lengthWithEnd, List.length_append] at hn
      have hle : Line.length (front ++ x) ≤ front.length := by omega
      obtain ⟨hsame, hlt⟩ := Line.length_spaced hx hle y
      rw [if_pos hclose, Line.lengthWithEnd, Line.lengthWithEnd, hsame, List.length_append,
        List.length_append]
      exact congrArg some (by omega)
    · rename_i hopen
      obtain ⟨m, hm, rfl⟩ := Option.map_eq_some_iff.mp h
      rw [if_neg hopen, ih hm (by omega)]
      rfl

namespace Gap

variable {lineStart : Bool} {g : Gap}

/-- **A piece of layout that ends in front of the space** is the same whatever follows. -/
theorem read?_spaced (hx : Spaced x) (hy : Spaced y)
    (h : read? lineStart (front ++ x) = some g) (hg : g.length ≤ front.length) :
    read? lineStart (front ++ y) = some g := by
  cases front with
  | nil => cases hg
  | cons b front =>
    rw [List.length_cons, Gap.length] at hg
    have hword := (hx.sameWord front hy).cons b
    rw [List.cons_append, read?] at h
    rw [List.cons_append, read?, ← joinedLine?_spaced front hx hy,
      ← BlockComment.opensAt_congr lineStart hword]
    split at h
    · rename_i hblank
      cases h
      have hlt := hx.length_takeWhile_lt (p := Byte.isBlank) rfl rfl (Nat.le_of_succ_le_succ hg)
      rw [if_pos hblank, blanks, blanks, takeWhile_append_of_lt hlt, takeWhile_append_of_lt hlt]
    rename_i hblank
    rw [if_neg hblank]
    split at h
    · rename_i hhash
      cases h
      rw [if_pos hhash, comment, comment,
        (Line.length_spaced hx (Nat.le_of_succ_le_succ hg) y).1]
    rename_i hhash
    rw [if_neg hhash]
    split at h
    · rename_i hbackslash
      rw [if_pos hbackslash, h]
    rename_i hbackslash
    rw [if_neg hbackslash]
    split at h
    · rename_i hopen
      obtain ⟨n, hn, rfl⟩ := Option.map_eq_some_iff.mp h
      rw [if_pos hopen, blockComment?,
        BlockComment.length?_spaced hx hy hn (Nat.le_of_succ_le_succ hg)]
      rfl
    · cases h

/-- Where there is no layout and no block comment, there is none whatever follows. -/
theorem read?_spaced_none (hx : Spaced x) (hy : Spaced y)
    (h : read? lineStart (front ++ x) = none)
    (hopen : BlockComment.opensAt lineStart (front ++ x) = false) :
    read? lineStart (front ++ y) = none := by
  cases front with
  | nil => cases hx <;> cases h
  | cons b front =>
    have hword := (hx.sameWord front hy).cons b
    rw [List.cons_append, read?, ← joinedLine?_spaced front hx hy,
      ← BlockComment.opensAt_congr lineStart hword]
    rw [List.cons_append] at hopen
    rw [List.cons_append, read?, hopen] at h
    rw [hopen]
    split at h
    · cases h
    rename_i hblank
    rw [if_neg hblank]
    split at h
    · cases h
    rename_i hhash
    rw [if_neg hhash]
    split at h
    · rename_i hbackslash
      rw [if_pos hbackslash, h]
    · rename_i hbackslash
      rw [if_neg hbackslash]
      rfl

end Gap

/-! ### Openers of heredocs -/

namespace HeredocStart

/-- The number of bytes of an opener, accepted or not. -/
def extent : HeredocStart → Nat
  | absent => 0
  | broken length => length
  | accepted opener => opener.length

theorem quoted_spaced (indented : Bool) {quote : Byte} (offset : Nat) (hx : Spaced x)
    (hspace : quote ≠ 0x20) (htab : quote ≠ 0x09)
    (h : (quoted indented quote offset (front ++ x)).extent ≤ offset + (front.length + 1))
    (y : List Byte) :
    quoted indented quote offset (front ++ y) = quoted indented quote offset (front ++ x) := by
  have hsize : ((front ++ x).takeWhile fun b => b != quote && b != Byte.newline).length
      ≤ front.length := by
    simp only [quoted] at h
    split at h
    all_goals
      simp only [extent] at h
      omega
  have hlt := hx.length_takeWhile_lt (p := fun b => b != quote && b != Byte.newline)
    (by simp [Ne.symm hspace, Byte.newline]) (by simp [Ne.symm htab, Byte.newline]) hsize
  have hdrop : ∀ z : List Byte,
      ((front ++ z).drop (front.takeWhile fun b => b != quote && b != Byte.newline).length).head?
        = (front.drop (front.takeWhile fun b => b != quote && b != Byte.newline).length).head? := by
    intro z
    rw [List.drop_append_of_le_length (Nat.le_of_lt hlt), List.drop_eq_getElem_cons hlt]
    rfl
  simp only [quoted, takeWhile_append_of_lt hlt, hdrop]

theorem identifier_spaced (indented : Bool) (offset : Nat) (hx : Spaced x) (hy : Spaced y)
    (h : (identifier indented offset (front ++ x)).extent ≤ offset + front.length) :
    identifier indented offset (front ++ y) = identifier indented offset (front ++ x) := by
  cases front with
  | nil => cases hx <;> cases hy <;> rfl
  | cons b front =>
    have hname := (hx.sameWord (b :: front) hy).takeWhile (p := Byte.isIdentContinue) (by decide)
    rw [List.cons_append, identifier] at h
    rw [List.cons_append, List.cons_append, identifier, identifier]
    split at h
    · rename_i hquote
      have hne : b ≠ 0x20 ∧ b ≠ 0x09 := by
        rw [Bool.or_eq_true, beq_iff_eq, beq_iff_eq] at hquote
        rcases hquote with rfl | rfl <;> exact ⟨by decide, by decide⟩
      rw [if_pos hquote, if_pos hquote, quoted_spaced indented offset hx hne.1 hne.2 h y]
    · rename_i hquote
      rw [List.cons_append, List.cons_append] at hname
      rw [if_neg hquote, if_neg hquote, hname]

/-- **An opener that ends in front of the space** is the same whatever follows. -/
theorem read_spaced (hx : Spaced x) (hy : Spaced y)
    (h : (read (front ++ x)).extent ≤ front.length) : read (front ++ y) = read (front ++ x) := by
  cases front with
  | nil => cases hx <;> cases hy <;> rfl
  | cons b front =>
    by_cases hsign : b = 0x2D ∨ b = 0x7E
    · have hread : ∀ z, read (b :: z) = identifier true 1 z := by
        intro z
        rcases hsign with rfl | rfl <;> rfl
      rw [List.cons_append, hread] at h
      rw [List.cons_append, List.cons_append, hread, hread]
      exact identifier_spaced true 1 hx hy (by rwa [Nat.add_comm])
    · rw [not_or] at hsign
      have hread : ∀ z, read (b :: z) = identifier false 0 (b :: z) :=
        fun z => by simp [read, hsign]
      rw [List.cons_append, hread, ← List.cons_append] at h
      rw [List.cons_append, List.cons_append, hread, hread, ← List.cons_append, ← List.cons_append]
      exact identifier_spaced false 0 hx hy (by rwa [Nat.zero_add])

end HeredocStart

/-! ### Lexemes -/

namespace Lexeme

theorem less_spaced (l : Lookback) (hx : Spaced x) (hy : Spaced y)
    (h : (less l (front ++ x)).extent ≤ front.length + 1) :
    less l (front ++ y) = less l (front ++ x) := by
  have hpunctuation := punctuation_congr 0x3C (hx.sameWord front hy)
  cases front with
  | nil => cases hx <;> cases hy <;> rfl
  | cons b front =>
    by_cases hb : b = 0x3C
    · subst hb
      rw [List.cons_append, List.cons_append] at hpunctuation
      simp only [List.cons_append, less, ← hpunctuation] at h ⊢
      split at h
      · rename_i habuts
        rw [if_pos habuts, if_pos habuts]
      · rename_i habuts
        rw [if_neg habuts, if_neg habuts, HeredocStart.read_spaced hx hy]
        rw [List.length_cons] at h
        cases hread : HeredocStart.read (front ++ x) with
        | absent => exact Nat.zero_le _
        | broken length =>
          rw [hread] at h
          exact Nat.le_of_add_le_add_right h
        | accepted opener =>
          rw [hread] at h
          simp only [extent] at h
          rw [HeredocStart.extent]
          omega
    · simpa [less, hb] using hpunctuation.symm

/-- **A lexeme that ends in front of the space** is the same whatever follows. -/
theorem read_spaced (l : Lookback) (lineStart : Bool) {b : Byte} (hx : Spaced x) (hy : Spaced y)
    (h : (read l lineStart b (front ++ x)).extent ≤ front.length + 1) :
    read l lineStart b (front ++ y) = read l lineStart b (front ++ x) := by
  have hclosed : BlockComment.opensAt lineStart (b :: (front ++ x)) = false := by
    rw [Bool.eq_false_iff]
    intro hopen
    have hpos := List.length_pos_iff.mpr hx.ne_nil
    rw [read_of_opensAt hopen, extent, List.length_append] at h
    omega
  refine (read_sameWord l lineStart (hx.sameWord front hy) hclosed ?_).symm
  rintro rfl
  exact (less_spaced l hx hy h).symm

end Lexeme

end ScriptLexer
