import ScriptLexer.Proofs.Lexeme.Extent
import ScriptLexer.Proofs.Lexeme.SameLine

/-!
# How lines end

A script whose lines end with a carriage return and a line feed is one whose lines end with a line
feed, with a carriage return in front of each. A carriage return is a blank, so no word goes on over
it; layout and the markers that stand on lines of their own are read alike in both scripts. The one
scanner that takes the carriage return for a byte like any other is that of a heredoc's identifier
between quotes, if the line ends in front of the closing quote: what it reports is then one byte
longer.

## Main definitions

* `withReturns` — bytes with a carriage return in front of every line feed
* `EndsAlike` — bytes end at the same place in both scripts, or in front of one line feed

## Main results

* `TerminatorLine.read?_withReturns` — a line that ends a heredoc
* `Gap.read?_withReturns` — a piece of layout
* `Lexeme.read_withReturns` — a lexeme
-/

namespace ScriptLexer

/-- The bytes with a carriage return in front of every line feed. -/
def withReturns (bytes : List Byte) : List Byte :=
  bytes.flatMap fun b => if b = Byte.newline then [0x0D, b] else [b]

variable {x y : List Byte} {b : Byte} {p : Byte → Bool}

/-! ### Bytes with returns -/

@[simp]
theorem withReturns_nil : withReturns [] = [] :=
  rfl

@[simp]
theorem withReturns_newline (x : List Byte) :
    withReturns (Byte.newline :: x) = 0x0D :: Byte.newline :: withReturns x :=
  rfl

theorem withReturns_cons (hb : b ≠ Byte.newline) (x : List Byte) :
    withReturns (b :: x) = b :: withReturns x := by
  rw [withReturns, List.flatMap_cons, if_neg hb]
  rfl

theorem withReturns_append (x y : List Byte) :
    withReturns (x ++ y) = withReturns x ++ withReturns y :=
  List.flatMap_append

theorem withReturns_of_notMem (h : Byte.newline ∉ x) : withReturns x = x := by
  induction x with
  | nil => rfl
  | cons b x ih =>
    rw [List.mem_cons, not_or] at h
    rw [withReturns_cons (Ne.symm h.1), ih h.2]

/-- The bytes behind the first `n` of a script are behind as many bytes more as lines end there. -/
theorem split_withReturns (n : Nat) (x : List Byte) :
    (withReturns x).take (withReturns (x.take n)).length = withReturns (x.take n)
      ∧ (withReturns x).drop (withReturns (x.take n)).length = withReturns (x.drop n) := by
  have hsplit : withReturns (x.take n) ++ withReturns (x.drop n) = withReturns x := by
    rw [← withReturns_append, List.take_append_drop]
  have htake : (withReturns (x.take n) ++ withReturns (x.drop n)).take
      (withReturns (x.take n)).length = withReturns (x.take n) := List.take_left
  have hdrop : (withReturns (x.take n) ++ withReturns (x.drop n)).drop
      (withReturns (x.take n)).length = withReturns (x.drop n) := List.drop_left
  rw [hsplit] at htake hdrop
  exact ⟨htake, hdrop⟩

theorem length_withReturns_take_add (m n : Nat) (x : List Byte) :
    (withReturns (x.take (m + n))).length
      = (withReturns (x.take m)).length + (withReturns ((x.drop m).take n)).length := by
  rw [List.take_add, withReturns_append, List.length_append]

/-- Bytes without a line feed are as many in both scripts. -/
theorem length_withReturns_take {n : Nat} (hn : n ≤ x.length) (h : Byte.newline ∉ x.take n) :
    (withReturns (x.take n)).length = n := by
  rw [withReturns_of_notMem h, List.length_take, Nat.min_eq_left hn]

theorem split_withReturns_of_notMem {n : Nat} (hn : n ≤ x.length) (h : Byte.newline ∉ x.take n) :
    (withReturns x).take n = x.take n ∧ (withReturns x).drop n = withReturns (x.drop n) := by
  have hsplit := split_withReturns n x
  rwa [length_withReturns_take hn h, withReturns_of_notMem h] at hsplit

/-- A line begins behind bytes in both scripts or in neither. -/
theorem getLast?_withReturns (x : List Byte) : (withReturns x).getLast? = x.getLast? := by
  rcases List.eq_nil_or_concat x with rfl | ⟨init, b, rfl⟩
  · rfl
  · rw [List.concat_eq_append, withReturns_append, List.getLast?_append, List.getLast?_append]
    by_cases hb : b = Byte.newline
    · subst hb
      rfl
    · rw [withReturns_cons hb]
      rfl

/-- Carriage returns end words, so both have the same words. -/
theorem SameWord.withReturns (x : List Byte) : SameWord x (withReturns x) := by
  induction x with
  | nil => exact .refl []
  | cons b x ih =>
    by_cases hb : b = Byte.newline
    · subst hb
      exact .ends rfl rfl
    · rw [withReturns_cons hb]
      exact ih.cons b

/-- A run of bytes among which a carriage return may be goes up to a line feed, and then it takes
the return in front of that, or it stops elsewhere, and then it stops there in both scripts. -/
theorem takeWhile_withReturns (hnewline : p Byte.newline = false) (hreturn : p 0x0D)
    (x : List Byte) :
    (∃ rest, x.drop (x.takeWhile p).length = Byte.newline :: rest
        ∧ (withReturns x).takeWhile p = x.takeWhile p ++ [0x0D]
        ∧ (withReturns x).drop ((x.takeWhile p).length + 1) = Byte.newline :: withReturns rest)
      ∨ (x.drop (x.takeWhile p).length).head? ≠ some Byte.newline
        ∧ (withReturns x).takeWhile p = x.takeWhile p
        ∧ (withReturns x).drop (x.takeWhile p).length
          = withReturns (x.drop (x.takeWhile p).length) := by
  induction x with
  | nil => exact .inr ⟨by simp, rfl, rfl⟩
  | cons b x ih =>
    by_cases hb : b = Byte.newline
    · subst hb
      exact .inl ⟨x, by simp [hnewline], by simp [hnewline, hreturn], by simp [hnewline]⟩
    · rw [withReturns_cons hb]
      by_cases hp : p b
      · simpa [List.takeWhile_cons_of_pos hp] using ih
      · exact .inr ⟨by simpa [hp] using hb, by simp [hp], by simp [hp, withReturns_cons hb]⟩

/-! ### Markers -/

namespace Line

theorem endsHere_withReturns (h : 0x0D ∉ x) : endsHere (withReturns x) = endsHere x := by
  cases x with
  | nil => rfl
  | cons b x =>
    rw [List.mem_cons, not_or] at h
    by_cases hb : b = Byte.newline
    · subst hb
      rfl
    · have hcr : b ≠ 0x0D := Ne.symm h.1
      have hnl : b ≠ 0x0A := hb
      rw [withReturns_cons hb]
      simp [endsHere, hnl, hcr]

/-- A marker is found in both scripts or in neither. -/
theorem any_behind?_withReturns {marker : List Byte} (hnewline : Byte.newline ∉ marker)
    (hreturn : 0x0D ∉ marker) (h : 0x0D ∉ x) :
    (behind? marker (withReturns x)).any endsHere = (behind? marker x).any endsHere := by
  induction marker generalizing x with
  | nil => exact endsHere_withReturns h
  | cons m marker ih =>
    rw [List.mem_cons, not_or] at hnewline hreturn
    cases x with
    | nil => rfl
    | cons b x =>
      rw [List.mem_cons, not_or] at h
      by_cases hb : b = Byte.newline
      · subst hb
        rw [withReturns_newline, behind?_of_ne hnewline.1, behind?_of_ne hreturn.1]
      · rw [withReturns_cons hb, behind?, behind?]
        split
        · exact ih hnewline.2 hreturn.2 h.2
        · rfl

theorem isEndMarker_withReturns (h : 0x0D ∉ x) : isEndMarker (withReturns x) = isEndMarker x :=
  any_behind?_withReturns (by decide) (by decide) h

end Line

/-- The identifier of a heredoc as it can stand in an opener: it has a byte, and neither a line feed
nor a carriage return. -/
structure TerminatorLine.InLine (line : TerminatorLine) : Prop where
  ne_nil : line.identifier ≠ []
  newline : Byte.newline ∉ line.identifier
  carriageReturn : 0x0D ∉ line.identifier

/-- A line feed is not the first byte of an identifier. -/
theorem TerminatorLine.InLine.behind?_newline {line : TerminatorLine} (hline : line.InLine)
    (x : List Byte) : Line.behind? line.identifier (Byte.newline :: x) = none := by
  obtain ⟨m, marker, hmarker⟩ := List.exists_cons_of_ne_nil hline.ne_nil
  have hnewline := hline.newline
  rw [hmarker, List.mem_cons, not_or] at hnewline
  rw [hmarker, Line.behind?_of_ne hnewline.1]

theorem TerminatorLine.InLine.read?_newline {line : TerminatorLine} (hline : line.InLine)
    (x : List Byte) : line.read? (Byte.newline :: x) = none := by
  have hindent : (if line.indented then ((Byte.newline :: x).takeWhile Byte.isBlank).length else 0)
      = 0 := by
    split <;> rfl
  rw [read?, hindent, List.drop_zero, hline.behind?_newline]
  rfl

/-- What is found of the line has no line feed. -/
theorem TerminatorLine.InLine.newline_notMem {line : TerminatorLine} {n : Nat}
    (hline : line.InLine) (h : line.read? x = some n) : Byte.newline ∉ x.take n := by
  have hindent : Byte.newline ∉
      x.take (if line.indented then (x.takeWhile Byte.isBlank).length else 0) := by
    split
    · rw [← List.prefix_iff_eq_take.mp (List.takeWhile_prefix Byte.isBlank)]
      exact fun hmem => absurd (List.mem_takeWhile_imp hmem) (by decide)
    · exact List.not_mem_nil
  simp only [read?] at h
  generalize (if line.indented then (x.takeWhile Byte.isBlank).length else 0) = indent
    at h hindent
  split at h
  · rename_i hfound
    cases h
    obtain ⟨tail, htail, -⟩ := (Option.any_eq_true ..).mp hfound
    rw [List.take_add, Line.eq_append_of_behind? htail, List.take_left, List.mem_append, not_or]
    exact ⟨hindent, hline.newline⟩
  · cases h

/-- **A line that ends a heredoc** ends it in both scripts or in neither. -/
theorem TerminatorLine.read?_withReturns {line : TerminatorLine} (hline : line.InLine)
    (h : 0x0D ∉ x) : line.read? (withReturns x) = line.read? x := by
  cases hindented : line.indented with
  | false =>
    simp only [read?, hindented, Bool.false_eq_true, if_false, List.drop_zero,
      Line.any_behind?_withReturns hline.newline hline.carriageReturn h]
  | true =>
    simp only [read?, hindented, if_true]
    rcases takeWhile_withReturns (p := Byte.isBlank) rfl rfl x with
      ⟨rest, hrest, hrun, hreturns⟩ | ⟨-, hrun, hreturns⟩
    · rw [hrun, List.length_append, List.length_singleton, hreturns, hrest,
        hline.behind?_newline, hline.behind?_newline]
      rfl
    · have hmarker := Line.any_behind?_withReturns hline.newline hline.carriageReturn
        (fun hmem => h (List.mem_of_mem_drop hmem) : 0x0D ∉ x.drop (x.takeWhile Byte.isBlank).length)
      rw [hrun, hreturns, hmarker]

/-! ### Layout -/

theorem Gap.joinedLine?_withReturns (h : 0x0D ∉ x) :
    (∃ rest, x = Byte.newline :: rest) ∨ joinedLine? x = none ∧ joinedLine? (withReturns x) = none := by
  cases x with
  | nil => exact .inr ⟨rfl, rfl⟩
  | cons b x =>
    rw [List.mem_cons, not_or] at h
    by_cases hb : b = Byte.newline
    · exact .inl ⟨x, by rw [hb]⟩
    · have hcr : b ≠ 0x0D := Ne.symm h.1
      have hnl : b ≠ 0x0A := hb
      rw [withReturns_cons hb]
      exact .inr ⟨by simp [joinedLine?, hnl, hcr], by simp [joinedLine?, hnl, hcr]⟩

/-- A line has one byte more for the return in front of its line feed. -/
theorem Line.lengthWithEnd_withReturns (x : List Byte) :
    lengthWithEnd (withReturns x) = (withReturns (x.take (lengthWithEnd x))).length := by
  obtain ⟨line, hline, hlength, rfl | ⟨behind, rfl⟩⟩ := exists_line x
  · have hall : lengthWithEnd x = x.length := by
      rw [lengthWithEnd, ← hlength]
      omega
    rw [withReturns_of_notMem hline, hall, List.take_length, withReturns_of_notMem hline]
  · have hreturn : Byte.newline ∉ line ++ [0x0D] := by
      rw [List.mem_append, not_or]
      exact ⟨hline, by decide⟩
    have hsplit : withReturns (line ++ Byte.newline :: behind)
        = line ++ [0x0D] ++ Byte.newline :: withReturns behind := by
      rw [withReturns_append, withReturns_of_notMem hline, List.append_assoc]
      rfl
    have htake : (line ++ Byte.newline :: behind).take (line.length + 1)
        = line ++ [Byte.newline] := by
      rw [List.take_length_add_append]
      rfl
    rw [hsplit, lengthWithEnd_line hreturn, lengthWithEnd_line hline, htake, withReturns_append,
      withReturns_of_notMem hline]
    simp

/-- A block comment is closed in both scripts or in neither. -/
theorem BlockComment.length?_withReturns (x : List Byte) :
    length? (withReturns x) = (length? x).map fun n => (withReturns (x.take n)).length := by
  induction x with
  | nil => rfl
  | cons b x ih =>
    have hword : Line.hasWord closer x = Line.hasWord closer (withReturns x) :=
      Line.hasWord_congr (by decide) (SameWord.withReturns x)
    have htake : ∀ n, (b :: x).take (1 + n) = b :: x.take n := fun n => by
      rw [Nat.add_comm, List.take_succ_cons]
    by_cases hb : b = Byte.newline
    · subst hb
      have hreturn : (0x0D == Byte.newline) = false := rfl
      rw [withReturns_newline, length?, length?, length?, ← hword, hreturn, ih]
      simp only [Bool.false_and, Bool.false_eq_true, if_false]
      split
      · simp only [Option.map_some, Line.lengthWithEnd_withReturns, htake, withReturns_newline,
          List.length_cons]
        exact congrArg some (by omega)
      · cases length? x with
        | none => rfl
        | some n =>
          simp only [Option.map_some, htake, withReturns_newline, List.length_cons]
          exact congrArg some (by omega)
    · have hne : (b == Byte.newline) = false := beq_eq_false_iff_ne.mpr hb
      rw [withReturns_cons hb, length?, length?, hne, ih]
      simp only [Bool.false_and, Bool.false_eq_true, if_false]
      cases length? x with
      | none => rfl
      | some n =>
        simp only [Option.map_some, htake, withReturns_cons hb, List.length_cons]
        exact congrArg some (by omega)

/-- The first `n` bytes of a script end where the first `n'` of the script with returns do, or both
end in front of one line feed, whose return is among the latter. -/
def EndsAlike (x : List Byte) (n n' : Nat) : Prop :=
  n' = (withReturns (x.take n)).length
    ∨ ∃ rest, x.drop n = Byte.newline :: rest
      ∧ (withReturns x).drop n' = Byte.newline :: withReturns rest

/-- A run of bytes among which a carriage return may be, and one byte in front of it. -/
theorem EndsAlike.run (hnewline : p Byte.newline = false) (hreturn : p 0x0D)
    (hb : b ≠ Byte.newline) (x : List Byte) :
    EndsAlike (b :: x) ((x.takeWhile p).length + 1) (((withReturns x).takeWhile p).length + 1) := by
  rw [EndsAlike, withReturns_cons hb]
  rcases takeWhile_withReturns hnewline hreturn x with
    ⟨rest, hrest, hrun, hreturns⟩ | ⟨-, hrun, -⟩
  · rw [hrun, List.length_append]
    exact .inr ⟨rest, hrest, hreturns⟩
  · have hline : Byte.newline ∉ (b :: x).take ((x.takeWhile p).length + 1) := by
      rw [List.take_succ_cons, ← List.prefix_iff_eq_take.mp (List.takeWhile_prefix p),
        List.mem_cons, not_or]
      refine ⟨Ne.symm hb, fun hmem => ?_⟩
      rw [List.mem_takeWhile_imp hmem] at hnewline
      cases hnewline
    have hle : (x.takeWhile p).length + 1 ≤ (b :: x).length :=
      Nat.succ_le_succ (List.takeWhile_prefix p).length_le
    rw [hrun, length_withReturns_take hle hline]
    exact .inl rfl

/-- **A piece of layout is read in both scripts or in neither,** and ends alike in both. -/
theorem Gap.read?_withReturns (lineStart : Bool) (hreturn : 0x0D ∉ x)
    (hhead : x.head? ≠ some Byte.newline) :
    (read? lineStart x = none ∧ read? lineStart (withReturns x) = none)
      ∨ ∃ g g', read? lineStart x = some g ∧ read? lineStart (withReturns x) = some g'
        ∧ g'.separates = g.separates ∧ EndsAlike x g.length g'.length := by
  cases x with
  | nil => exact .inl ⟨rfl, rfl⟩
  | cons b x =>
    have hb : b ≠ Byte.newline := fun h => hhead (congrArg some h)
    rw [List.mem_cons, not_or] at hreturn
    have hopens := BlockComment.opensAt_congr lineStart ((SameWord.withReturns x).cons b)
    rw [withReturns_cons hb, read?, read?, ← hopens]
    by_cases hblank : Byte.isBlank b
    · rw [if_pos hblank, if_pos hblank]
      exact .inr ⟨_, _, rfl, rfl, rfl, .run rfl rfl hb x⟩
    rw [if_neg hblank, if_neg hblank]
    by_cases hhash : b == Byte.ofChar '#'
    · rw [if_pos hhash, if_pos hhash]
      exact .inr ⟨_, _, rfl, rfl, rfl, .run rfl rfl hb x⟩
    rw [if_neg hhash, if_neg hhash]
    by_cases hbackslash : b == Byte.ofChar '\\'
    · rw [if_pos hbackslash, if_pos hbackslash]
      rcases joinedLine?_withReturns hreturn.2 with ⟨rest, rfl⟩ | hnone
      · refine .inr ⟨_, _, rfl, rfl, rfl, .inl ?_⟩
        rw [Gap.length, Gap.length, List.take_succ_cons, withReturns_cons hb]
        rfl
      · exact .inl hnone
    rw [if_neg hbackslash, if_neg hbackslash]
    by_cases hopen : BlockComment.opensAt lineStart (b :: x)
    · rw [if_pos hopen, if_pos hopen, blockComment?, blockComment?,
        BlockComment.length?_withReturns]
      cases BlockComment.length? x with
      | none => exact .inl ⟨rfl, rfl⟩
      | some n =>
        refine .inr ⟨_, _, rfl, rfl, rfl, .inl ?_⟩
        rw [Gap.length, Gap.length, List.take_succ_cons, withReturns_cons hb]
        rfl
    · rw [if_neg hopen, if_neg hopen]
      exact .inl ⟨rfl, rfl⟩

/-! ### Openers of heredocs -/

namespace HeredocStart

/-- What is read on a line is read of the line alone. -/
theorem quoted_line (indented : Bool) {quote : Byte} (offset : Nat) (hquote : quote ≠ Byte.newline)
    (x behind : List Byte) :
    quoted indented quote offset (x ++ Byte.newline :: behind) = quoted indented quote offset x := by
  have hrun : (x ++ Byte.newline :: behind).takeWhile (fun b => b != quote && b != Byte.newline)
      = x.takeWhile fun b => b != quote && b != Byte.newline := by
    rw [List.takeWhile_append]
    split
    · rename_i hall
      rw [(List.takeWhile_prefix _).eq_of_length hall]
      simp
    · rfl
  have hhead : ∀ n, n ≤ x.length → (((x ++ Byte.newline :: behind).drop n).head? = some quote
      ↔ (x.drop n).head? = some quote) := by
    intro n hn
    rw [List.drop_append_of_le_length hn]
    cases x.drop n with
    | nil =>
      refine iff_of_false (fun h => hquote ?_) (by simp)
      exact (Option.some.inj h).symm
    | cons b rest => rfl
  simp only [quoted, hrun, hhead _ (List.takeWhile_prefix _).length_le]

theorem identifier_line (indented : Bool) (offset : Nat) (x behind : List Byte) :
    identifier indented offset (x ++ Byte.newline :: behind) = identifier indented offset x := by
  cases x with
  | nil => rfl
  | cons b x =>
    have hname : ((b :: x) ++ Byte.newline :: behind).takeWhile Byte.isIdentContinue
        = (b :: x).takeWhile Byte.isIdentContinue := by
      have hword : SameWord ((b :: x) ++ Byte.newline :: behind) ((b :: x) ++ []) :=
        .append (b :: x) rfl rfl
      rw [hword.takeWhile (by decide), List.append_nil]
    rw [List.cons_append] at hname
    rw [List.cons_append, identifier, identifier, hname]
    split
    · rename_i hquote
      have hne : b ≠ Byte.newline := by
        rintro rfl
        cases hquote
      rw [quoted_line indented offset hne]
    · rfl

theorem read_line (x behind : List Byte) :
    read (x ++ Byte.newline :: behind) = read x := by
  cases x with
  | nil => rfl
  | cons b x =>
    by_cases hsign : b = 0x2D ∨ b = 0x7E
    · have hread : ∀ z, read (b :: z) = identifier true 1 z := by
        intro z
        rcases hsign with rfl | rfl <;> rfl
      rw [List.cons_append, hread, hread, identifier_line]
    · rw [not_or] at hsign
      have hread : ∀ z, read (b :: z) = identifier false 0 (b :: z) :=
        fun z => by simp [read, hsign]
      rw [List.cons_append, hread, hread, ← List.cons_append, identifier_line]

end HeredocStart

/-- The bytes in front of a line feed have the words of what goes on behind it. -/
theorem SameWord.line (x behind : List Byte) : SameWord (x ++ Byte.newline :: behind) x := by
  have hword : SameWord (x ++ Byte.newline :: behind) (x ++ []) := .append x rfl rfl
  rwa [List.append_nil] at hword

namespace Lexeme

variable (l : Lookback)

theorem less_line (x behind : List Byte) : less l (x ++ Byte.newline :: behind) = less l x := by
  have hpunctuation := punctuation_congr 0x3C (SameWord.line x behind)
  cases x with
  | nil => exact hpunctuation
  | cons b x =>
    by_cases hb : b = 0x3C
    · subst hb
      rw [List.cons_append] at hpunctuation
      simp only [List.cons_append, less, HeredocStart.read_line, hpunctuation]
    · simpa [less, hb] using hpunctuation

/-- What is read on a line is read of the line alone, unless a block comment opens there. -/
theorem read_line (lineStart : Bool) {b : Byte} {x behind : List Byte}
    (hopen : BlockComment.opensAt lineStart (b :: (x ++ Byte.newline :: behind)) = false) :
    read l lineStart b (x ++ Byte.newline :: behind) = read l lineStart b x :=
  read_sameWord l lineStart (.line x behind) hopen fun _ => less_line l x behind

/-- **A lexeme ends with its line at the latest,** unless it is a block comment. -/
theorem newline_notMem_extent (lineStart : Bool) {b : Byte} {rest : List Byte}
    (hb : b ≠ Byte.newline) (hopen : BlockComment.opensAt lineStart (b :: rest) = false) :
    Byte.newline ∉ (b :: rest).take (read l lineStart b rest).extent := by
  obtain ⟨line, hline, -, rfl | ⟨behind, rfl⟩⟩ := Line.exists_line rest
  · intro hmem
    rcases List.mem_cons.mp (List.mem_of_mem_take hmem) with hnewline | hmem
    · exact hb hnewline.symm
    · exact hline hmem
  · have hle : (read l lineStart b line).extent ≤ (b :: line).length :=
      (fits_read l line lineStart b).extent_le
    rw [read_line l lineStart hopen, ← List.cons_append, List.take_append_of_le_length hle]
    intro hmem
    rcases List.mem_cons.mp (List.mem_of_mem_take hmem) with hnewline | hmem
    · exact hb hnewline.symm
    · exact hline hmem

end Lexeme

/-! ### Lexemes and returns -/

theorem head?_withReturns (h : x.head? ≠ some Byte.newline) : (withReturns x).head? = x.head? := by
  cases x with
  | nil => rfl
  | cons b x =>
    have hb : b ≠ Byte.newline := fun hb => h (congrArg some hb)
    rw [withReturns_cons hb]
    rfl

namespace HeredocStart

/-- An identifier that is not closed on its line takes the return with it. -/
theorem quoted_withReturns (indented : Bool) {quote : Byte} (offset : Nat)
    (hnewline : quote ≠ Byte.newline) (hreturn : quote ≠ 0x0D) (x : List Byte) :
    quoted indented quote offset (withReturns x) = quoted indented quote offset x
      ∨ ∃ n rest, quoted indented quote offset x = broken (offset + 1 + n)
        ∧ quoted indented quote offset (withReturns x) = broken (offset + 1 + n + 1)
        ∧ x.drop n = Byte.newline :: rest
        ∧ (withReturns x).drop (n + 1) = Byte.newline :: withReturns rest := by
  rcases takeWhile_withReturns (p := fun b => b != quote && b != Byte.newline) (by simp)
    (by simp [Ne.symm hreturn, Byte.newline]) x with
    ⟨rest, hrest, hrun, hreturns⟩ | ⟨hhead, hrun, hreturns⟩
  · refine .inr ⟨_, rest, ?_, ?_, hrest, hreturns⟩
    · simp only [quoted, hrest, List.head?_cons, Option.some.injEq, Ne.symm hnewline, and_false,
        if_false]
      exact congrArg broken (by omega)
    · simp only [quoted, hrun, List.length_append, List.length_singleton, hreturns,
        List.head?_cons, Option.some.injEq, Ne.symm hnewline, and_false, if_false]
      exact congrArg broken (by omega)
  · refine .inl ?_
    simp only [quoted, hrun, hreturns, head?_withReturns hhead]

theorem identifier_withReturns (indented : Bool) (offset : Nat) (x : List Byte) :
    identifier indented offset (withReturns x) = identifier indented offset x
      ∨ ∃ n rest, identifier indented offset x = broken (offset + n)
        ∧ identifier indented offset (withReturns x) = broken (offset + n + 1)
        ∧ x.drop n = Byte.newline :: rest
        ∧ (withReturns x).drop (n + 1) = Byte.newline :: withReturns rest := by
  cases x with
  | nil => exact .inl rfl
  | cons b x =>
    by_cases hb : b = Byte.newline
    · subst hb
      exact .inl rfl
    · have hname := (SameWord.withReturns (b :: x)).takeWhile (p := Byte.isIdentContinue) (by decide)
      rw [withReturns_cons hb] at hname ⊢
      rw [identifier, identifier, ← hname]
      split
      · rename_i hquote
        have hne : b ≠ 0x0D := by
          rintro rfl
          cases hquote
        refine (quoted_withReturns indented offset hb hne x).imp_right ?_
        rintro ⟨n, rest, hx, hreturns, hrest, hbehind⟩
        exact ⟨n + 1, rest, by rw [hx, Nat.add_assoc, Nat.add_comm 1],
          by rw [hreturns, Nat.add_assoc offset, Nat.add_comm 1], hrest, hbehind⟩
      · exact .inl rfl

theorem read_withReturns (x : List Byte) :
    read (withReturns x) = read x
      ∨ ∃ n rest, read x = broken n ∧ read (withReturns x) = broken (n + 1)
        ∧ x.drop n = Byte.newline :: rest
        ∧ (withReturns x).drop (n + 1) = Byte.newline :: withReturns rest := by
  cases x with
  | nil => exact .inl rfl
  | cons b x =>
    by_cases hb : b = Byte.newline
    · subst hb
      exact .inl rfl
    by_cases hsign : b = 0x2D ∨ b = 0x7E
    · have hread : ∀ z, read (b :: z) = identifier true 1 z := by
        intro z
        rcases hsign with rfl | rfl <;> rfl
      rw [withReturns_cons hb, hread, hread]
      refine (identifier_withReturns true 1 x).imp_right ?_
      rintro ⟨n, rest, hx, hreturns, hrest, hbehind⟩
      exact ⟨1 + n, rest, hx, hreturns, by rwa [Nat.add_comm, List.drop_succ_cons],
        by rwa [Nat.add_comm 1, List.drop_succ_cons]⟩
    · rw [not_or] at hsign
      have hread : ∀ z, read (b :: z) = identifier false 0 (b :: z) :=
        fun z => by simp [read, hsign]
      have hidentifier := identifier_withReturns false 0 (b :: x)
      rw [withReturns_cons hb] at hidentifier ⊢
      rw [hread, hread]
      simpa using hidentifier

end HeredocStart

namespace Lexeme

variable (l : Lookback)

/-- A heredoc's opener that is not closed on its line takes the return with it. -/
theorem less_withReturns (x : List Byte) :
    less l (withReturns x) = less l x
      ∨ ∃ n rest, less l x = malformed .invalidHeredocIdentifier (n + 1) true
        ∧ less l (withReturns x) = malformed .invalidHeredocIdentifier (n + 2) true
        ∧ x.drop n = Byte.newline :: rest
        ∧ (withReturns x).drop (n + 1) = Byte.newline :: withReturns rest := by
  have hpunctuation := punctuation_congr 0x3C (SameWord.withReturns x)
  cases x with
  | nil => exact .inl rfl
  | cons b x =>
    by_cases hb : b = 0x3C
    · subst hb
      rw [withReturns_cons (by decide)] at hpunctuation ⊢
      simp only [less, ← hpunctuation]
      split
      · exact .inl rfl
      · rcases HeredocStart.read_withReturns x with hsame | ⟨n, rest, hx, hreturns, hrest, hbehind⟩
        · rw [hsame]
          exact .inl rfl
        · rw [hx, hreturns]
          exact .inr ⟨n + 1, rest, rfl, rfl, hrest, hbehind⟩
    · have hless : ∀ z : List Byte, z.head? ≠ some 0x3C → less l z = punctuation 0x3C z := by
        intro z hz
        rw [less.eq_def]
        split
        · exact absurd rfl hz
        · rfl
      have hhead : (withReturns (b :: x)).head? ≠ some 0x3C := by
        by_cases hnewline : b = Byte.newline
        · subst hnewline
          exact fun h => by cases h
        · rw [withReturns_cons hnewline]
          exact fun h => hb (Option.some.inj h)
      rw [hless _ hhead, hless (b :: x) fun h => hb (Option.some.inj h), hpunctuation]
      exact .inl rfl

/-- **A lexeme is the same in both scripts,** unless it is an opener of a heredoc that is not closed
on its line, which takes the return with it. -/
theorem read_withReturns (lineStart : Bool) {b : Byte} {rest : List Byte}
    (hopen : BlockComment.opensAt lineStart (b :: rest) = false) :
    read l lineStart b (withReturns rest) = read l lineStart b rest
      ∨ ∃ n behind, read l lineStart b rest = malformed .invalidHeredocIdentifier (n + 1) true
        ∧ read l lineStart b (withReturns rest)
          = malformed .invalidHeredocIdentifier (n + 2) true
        ∧ rest.drop n = Byte.newline :: behind
        ∧ (withReturns rest).drop (n + 1) = Byte.newline :: withReturns behind := by
  by_cases hless : b = 0x3C
  · subst hless
    exact less_withReturns l rest
  · exact .inl (read_sameWord l lineStart (.withReturns rest) hopen fun h => absurd h hless).symm

end Lexeme

/-! ### Introducers -/

namespace Introducer

/-- The number of bytes of an introducer. -/
def extent : Introducer → Nat
  | statements => 2
  | variableName _ length => 1 + length

variable {rest : List Byte} {i : Introducer}

theorem extent_le (h : read? rest = some i) : i.extent ≤ rest.length := by
  have hwithin := within_read? h
  cases i with
  | statements => exact hwithin
  | variableName kind length => exact hwithin.2.2

/-- An introducer ends with its line at the latest. -/
theorem newline_notMem_extent (h : read? rest = some i) : Byte.newline ∉ rest.take i.extent := by
  obtain ⟨line, hline, -, rfl | ⟨behind, rfl⟩⟩ := Line.exists_line rest
  · exact fun hmem => hline (List.mem_of_mem_take hmem)
  · rw [read?_congr (SameWord.line line behind)] at h
    rw [List.take_append_of_le_length (extent_le h)]
    exact fun hmem => hline (List.mem_of_mem_take hmem)

end Introducer

end ScriptLexer
