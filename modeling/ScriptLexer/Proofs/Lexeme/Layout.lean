import ScriptLexer.Lexeme.Layout
import ScriptLexer.Proofs.Lexeme.Line

/-!
# Layout, written out

`Layout before gap behind` says what the bytes `gap` are when nothing in them is a token: blanks,
joined line ends, comments and block comments, one after another. What a piece of layout is depends
on the bytes around it. A comment goes on to the end of its line, so a line feed or the end of the
script is behind it, and a block comment begins a line, so a line feed or the start of the script is
in front of it. The relation knows both, and no function that reads layout occurs in it.

## Main definitions

* `LayoutPiece`, `Layout` — one piece of layout, and any number of them
* `LayoutBetween` — layout between two offsets of a script

## Main results

* `layout_of_read?` — what is read as a piece of layout is layout
* `Layout.append`, `Layout.congr_before` — layout is put together, and depends on the bytes in front
  of it by the last one only
-/

namespace ScriptLexer

/-- The lines of a block comment behind its first, up to and with the first one that begins with the
closing word; that one ends with a line feed or with the script. -/
inductive ClosingLines : (lines behind : List Byte) → Prop
  | last {line behind : List Byte} (hline : Byte.newline ∉ line)
      (hword : Line.hasWord BlockComment.closer line) :
      ClosingLines (line ++ [Byte.newline]) behind
  | lastOfAll {line : List Byte} (hline : Byte.newline ∉ line)
      (hword : Line.hasWord BlockComment.closer line) : ClosingLines line []
  | more {line lines behind : List Byte} (hline : Byte.newline ∉ line)
      (hword : ¬ Line.hasWord BlockComment.closer line) (h : ClosingLines lines behind) :
      ClosingLines (line ++ Byte.newline :: lines) behind

/-- One piece of layout, with the bytes in front of it and those behind. -/
inductive LayoutPiece (before : List Byte) : (piece behind : List Byte) → Prop
  | blank {b : Byte} {behind : List Byte} (hb : Byte.isBlank b) : LayoutPiece before [b] behind
  | joinedLine {behind : List Byte} : LayoutPiece before [Byte.ofChar '\\', Byte.newline] behind
  | joinedReturn {behind : List Byte} :
      LayoutPiece before [Byte.ofChar '\\', 0x0D, Byte.newline] behind
  | comment {text behind : List Byte} (htext : Byte.newline ∉ text)
      (hbehind : behind = [] ∨ behind.head? = some Byte.newline) :
      LayoutPiece before (Byte.ofChar '#' :: text) behind
  | block {first lines behind : List Byte} (hbefore : Line.startsBehind before)
      (hfirst : Byte.newline ∉ first) (hword : Line.hasWord BlockComment.opener first)
      (hlines : ClosingLines lines behind) :
      LayoutPiece before (first ++ Byte.newline :: lines) behind

/-- Any number of pieces of layout, with the bytes in front of them and those behind. -/
inductive Layout : (before gap behind : List Byte) → Prop
  | nil {before behind : List Byte} : Layout before [] behind
  | cons {before piece gap behind : List Byte} (hpiece : LayoutPiece before piece (gap ++ behind))
      (hgap : Layout (before ++ piece) gap behind) : Layout before (piece ++ gap) behind

/-- The bytes of a script between two offsets are layout. -/
def LayoutBetween (source : List Byte) (start stop : Nat) : Prop :=
  Layout (source.take start) ((source.drop start).take (stop - start)) (source.drop stop)

variable {before before' piece gap gap' behind : List Byte}

/-! ### Putting layout together -/

namespace Layout

theorem append (h : Layout before gap (gap' ++ behind)) (h' : Layout (before ++ gap) gap' behind) :
    Layout before (gap ++ gap') behind := by
  generalize hall : gap' ++ behind = all at h
  induction h with
  | nil => simpa using h'
  | cons hpiece _ ih =>
    subst hall
    rw [List.append_assoc]
    rw [← List.append_assoc] at h'
    exact .cons (by rwa [List.append_assoc]) (ih h' rfl)

theorem single (h : LayoutPiece before piece behind) : Layout before piece behind := by
  rw [← List.append_nil piece]
  exact .cons h .nil

/-- **Of the bytes in front, only the last one matters.** -/
theorem congr_before (hlast : before.getLast? = before'.getLast?) (h : Layout before gap behind) :
    Layout before' gap behind := by
  induction h generalizing before' with
  | nil => exact .nil
  | cons hpiece _ ih =>
    refine .cons ?_ (ih (by rw [List.getLast?_append, hlast, ← List.getLast?_append]))
    cases hpiece with
    | blank hb => exact .blank hb
    | joinedLine => exact .joinedLine
    | joinedReturn => exact .joinedReturn
    | comment htext hbehind => exact .comment htext hbehind
    | block hbefore hfirst hword hlines =>
      refine .block ?_ hfirst hword hlines
      rwa [Line.startsBehind, ← hlast]

end Layout

/-! ### Reading layout -/

theorem eq_append_drop {rest line lines : List Byte} {b : Byte} {n : Nat}
    (h : rest.take n = line ++ b :: lines) : rest = line ++ b :: (lines ++ rest.drop n) := by
  rw [← List.cons_append, ← List.append_assoc, ← h, List.take_append_drop]

theorem layout_blanks {bytes : List Byte} (h : ∀ b ∈ bytes, Byte.isBlank b) :
    Layout before bytes behind := by
  induction bytes generalizing before with
  | nil => exact .nil
  | cons b bytes ih =>
    have hb : Byte.isBlank b := h b List.mem_cons_self
    rw [← List.singleton_append]
    exact .cons (.blank hb) (ih fun c hc => h c (List.mem_cons_of_mem b hc))

theorem layoutPiece_comment (rest : List Byte) :
    LayoutPiece before (Byte.ofChar '#' :: rest.take (Line.length rest))
      (rest.drop (Line.length rest)) := by
  obtain ⟨line, hline, hlength, rfl | ⟨behind, rfl⟩⟩ := Line.exists_line rest
  · rw [← hlength, List.take_length, List.drop_length]
    exact .comment hline (.inl rfl)
  · rw [← hlength, List.take_left, List.drop_left]
    exact .comment hline (.inr rfl)

theorem closingLines_line {rest : List Byte} (h : Line.hasWord BlockComment.closer rest) :
    ClosingLines (rest.take (Line.lengthWithEnd rest)) (rest.drop (Line.lengthWithEnd rest)) := by
  obtain ⟨line, hline, hlength, rfl | ⟨behind, rfl⟩⟩ := Line.exists_line rest
  · have hend : Line.lengthWithEnd rest = rest.length := by
      rw [Line.lengthWithEnd, ← hlength]
      omega
    rw [hend, List.take_length, List.drop_length]
    exact .lastOfAll hline h
  · have hend : Line.lengthWithEnd (line ++ Byte.newline :: behind)
        = (line ++ [Byte.newline]).length := by
      rw [Line.lengthWithEnd, ← hlength]
      simp only [List.length_append, List.length_cons, List.length_nil]
      omega
    have hsplit : line ++ Byte.newline :: behind = (line ++ [Byte.newline]) ++ behind :=
      List.append_cons ..
    rw [hend, hsplit, List.take_left, List.drop_left]
    rw [Line.hasWord_line (by decide)] at h
    exact .last hline h

/-- What is read as the rest of a block comment is the rest of a line, and closing lines. -/
theorem exists_closingLines {rest : List Byte} {n : Nat} (h : BlockComment.length? rest = some n) :
    ∃ line lines, Byte.newline ∉ line ∧ rest.take n = line ++ Byte.newline :: lines
      ∧ ClosingLines lines (rest.drop n) := by
  induction rest generalizing n with
  | nil => cases h
  | cons b rest ih =>
    rw [BlockComment.length?] at h
    split at h
    · rename_i hclose
      rw [Bool.and_eq_true, beq_iff_eq] at hclose
      obtain ⟨rfl, hword⟩ := hclose
      cases h
      rw [Nat.add_comm, List.take_succ_cons, List.drop_succ_cons]
      exact ⟨[], _, List.not_mem_nil, rfl, closingLines_line hword⟩
    · rename_i hopen
      obtain ⟨m, hm, rfl⟩ := Option.map_eq_some_iff.mp h
      obtain ⟨line, lines, hline, htake, hclosing⟩ := ih hm
      rw [Nat.add_comm, List.take_succ_cons, List.drop_succ_cons, htake]
      by_cases hb : b = Byte.newline
      · -- The line that begins here does not close the comment, and the lines behind it do.
        subst hb
        refine ⟨[], _, List.not_mem_nil, rfl, .more hline (fun hword => hopen ?_) hclosing⟩
        rw [eq_append_drop htake, Line.hasWord_line (by decide)]
        simpa using hword
      · exact ⟨b :: line, lines, by simp [Ne.symm hb, hline], rfl, hclosing⟩

theorem layoutPiece_blockComment {b : Byte} {rest : List Byte} {n : Nat} {lineStart : Bool}
    (hopen : BlockComment.opensAt lineStart (b :: rest)) (h : BlockComment.length? rest = some n)
    (hstart : lineStart → Line.startsBehind before) (hb : b ≠ Byte.newline) :
    LayoutPiece before (b :: rest.take n) (rest.drop n) := by
  obtain ⟨line, lines, hline, htake, hclosing⟩ := exists_closingLines h
  rw [BlockComment.opensAt, Bool.and_eq_true] at hopen
  have hword : Line.hasWord BlockComment.opener (b :: line) := by
    rw [eq_append_drop htake, ← List.cons_append, Line.hasWord_line (by decide)] at hopen
    exact hopen.2
  rw [htake]
  exact .block (hstart hopen.1) (by simp [Ne.symm hb, hline]) hword hclosing

/-- **What is read as a piece of layout is layout.** -/
theorem layout_of_read? {lineStart : Bool} {rest : List Byte} {g : Gap}
    (h : Gap.read? lineStart rest = some g) (hstart : lineStart → Line.startsBehind before) :
    Layout before (rest.take g.length) (rest.drop g.length) := by
  cases rest with
  | nil => cases h
  | cons b rest =>
    rw [Gap.length, List.take_succ_cons, List.drop_succ_cons]
    rw [Gap.read?] at h
    split at h
    · rename_i hb
      cases h
      have hrun : rest.take (Gap.blanks rest).more = rest.takeWhile Byte.isBlank :=
        (List.prefix_iff_eq_take.mp (List.takeWhile_prefix _)).symm
      rw [hrun]
      refine layout_blanks fun c hc => ?_
      rcases List.mem_cons.mp hc with rfl | hc
      · exact hb
      · exact List.mem_takeWhile_imp hc
    split at h
    · rename_i hb
      cases h
      rw [eq_of_beq hb]
      exact .single (layoutPiece_comment rest)
    split at h
    · rename_i hb
      rw [eq_of_beq hb]
      rw [Gap.joinedLine?.eq_def] at h
      split at h <;> cases h
      · exact .single .joinedLine
      · exact .single .joinedReturn
    split at h
    · rename_i hopen
      obtain ⟨n, hn, rfl⟩ := Option.map_eq_some_iff.mp h
      refine .single (layoutPiece_blockComment hopen hn hstart fun hb => ?_)
      subst hb
      rw [BlockComment.opensAt, ← List.nil_append (Byte.newline :: rest),
        Line.hasWord_line (by decide), Bool.and_eq_true] at hopen
      exact absurd hopen.2 (by decide)
    · cases h

/-! ### How far layout reaches -/

theorem BlockComment.length?_le {rest : List Byte} {n : Nat} (h : length? rest = some n) :
    n ≤ rest.length := by
  induction rest generalizing n with
  | nil => cases h
  | cons b rest ih =>
    rw [length?] at h
    split at h
    · cases h
      rw [Line.lengthWithEnd, List.length_cons]
      omega
    · obtain ⟨m, hm, rfl⟩ := Option.map_eq_some_iff.mp h
      have hle := ih hm
      rw [List.length_cons]
      omega

theorem Gap.length_le_of_read? {lineStart : Bool} {rest : List Byte} {g : Gap}
    (h : read? lineStart rest = some g) : g.length ≤ rest.length := by
  cases rest with
  | nil => cases h
  | cons b rest =>
    refine Nat.succ_le_succ ?_
    rw [read?] at h
    split at h
    · cases h
      exact (List.takeWhile_prefix _).length_le
    split at h
    · cases h
      exact (List.takeWhile_prefix _).length_le
    split at h
    · rw [joinedLine?.eq_def] at h
      split at h <;> cases h
      · exact Nat.le_add_left 1 _
      · exact Nat.le_add_left 2 _
    split at h
    · obtain ⟨n, hn, rfl⟩ := Option.map_eq_some_iff.mp h
      exact BlockComment.length?_le hn
    · cases h

end ScriptLexer
