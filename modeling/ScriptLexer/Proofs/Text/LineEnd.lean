import ScriptLexer.Proofs.Lexeme.LineEnd
import ScriptLexer.Proofs.Text.Stop

/-!
# How the lines of a text end

In a text a line feed stands for itself, and so does a carriage return. With returns in front of its
line feeds a text is read in the same pieces, except that an escape that takes a line feed takes the
return instead, and the line feed is left to stand for itself. That matters in one place. A line
feed that stands for itself starts a line, and one that an escape has taken does not: if the line
that closes a heredoc's body stands right behind such an escape, the body goes on over it, and it
does not if the line feed has a return in front.

## Main definitions

* `Style.Hides` — an escape hides the line that closes a text

## Main results

* `Style.passage_withReturns` — a passage is read alike in both scripts, unless an escape hides the
  line that closes it
-/

namespace ScriptLexer

variable {x : List Byte}

/-! ### Pieces -/

/-- The first `k` bytes have no line feed, or the last of them is the only one. -/
def EndsAtFeed (k : Nat) (x : List Byte) : Prop :=
  ∃ line rest, Byte.newline ∉ line ∧ (x = line ++ rest ∧ k = line.length
    ∨ x = line ++ Byte.newline :: rest ∧ k = line.length + 1)

namespace EndsAtFeed

theorem zero (x : List Byte) : EndsAtFeed 0 x :=
  ⟨[], x, List.not_mem_nil, .inl ⟨rfl, rfl⟩⟩

theorem cons {k : Nat} {b : Byte} (hb : b ≠ Byte.newline) (h : EndsAtFeed k x) :
    EndsAtFeed (k + 1) (b :: x) := by
  obtain ⟨line, rest, hline, hx⟩ := h
  refine ⟨b :: line, rest, ?_, hx.imp ?_ ?_⟩
  · rw [List.mem_cons, not_or]
    exact ⟨Ne.symm hb, hline⟩
  · rintro ⟨rfl, rfl⟩
    exact ⟨rfl, rfl⟩
  · rintro ⟨rfl, rfl⟩
    exact ⟨rfl, rfl⟩

theorem newline (x : List Byte) : EndsAtFeed 1 (Byte.newline :: x) :=
  ⟨[], x, List.not_mem_nil, .inr ⟨rfl, rfl⟩⟩

/-- What is behind the first bytes is behind as many in the script with returns, or a line feed in
front of it that the bytes have taken the return of. -/
theorem drop_withReturns {k : Nat} (h : EndsAtFeed k x) :
    ((withReturns (x.take k)).length = k ∧ (withReturns x).drop k = withReturns (x.drop k))
      ∨ (withReturns (x.take k)).length = k + 1 ∧ (x.take k).getLast? = some Byte.newline
        ∧ (withReturns x).drop k = Byte.newline :: withReturns (x.drop k) := by
  obtain ⟨line, rest, hline, ⟨rfl, rfl⟩ | ⟨rfl, rfl⟩⟩ := h
  · refine .inl ⟨?_, ?_⟩
    · rw [List.take_left, withReturns_of_notMem hline]
    · rw [withReturns_append, withReturns_of_notMem hline, List.drop_left, List.drop_left]
  · have htake : (line ++ Byte.newline :: rest).take (line.length + 1)
        = line ++ [Byte.newline] := by
      rw [List.take_length_add_append]
      rfl
    have hdrop : ∀ z : List Byte, ∀ b, (line ++ b :: z).drop (line.length + 1) = z := by
      intro z b
      rw [List.drop_length_add_append]
      rfl
    refine .inr ⟨?_, ?_, ?_⟩
    · rw [htake, withReturns_append, withReturns_of_notMem hline]
      simp
    · rw [htake, List.getLast?_concat]
    · rw [withReturns_append, withReturns_of_notMem hline, withReturns_newline, hdrop, hdrop]

end EndsAtFeed

namespace Escape

theorem more_octal_withReturns (x : List Byte) :
    (octal (withReturns x)).more = (octal x).more ∧ EndsAtFeed (octal x).more x := by
  have hdigits : ∀ z : List Byte,
      (octal z).more = ((z.takeWhile Byte.isOctal).take 3).length := fun z => by
    rw [octal, Piece.coded, List.take_takeWhile]
  have hword := (SameWord.withReturns x).takeWhile (p := Byte.isOctal) (by decide)
  refine ⟨by rw [hdigits, hdigits, hword], ?_⟩
  have hprefix : (x.takeWhile Byte.isOctal).take 3 <+: x :=
    (List.take_prefix 3 _).trans (List.takeWhile_prefix _)
  obtain ⟨rest, hrest⟩ := hprefix
  refine ⟨(x.takeWhile Byte.isOctal).take 3, rest, ?_, .inl ⟨hrest.symm, hdigits x⟩⟩
  intro hmem
  exact absurd (List.mem_takeWhile_imp (List.mem_of_mem_take hmem)) (by decide)

theorem more_hexadecimal_withReturns {b : Byte} (hb : b ≠ Byte.newline) (x : List Byte) :
    (hexadecimal (withReturns x)).more = (hexadecimal x).more
      ∧ EndsAtFeed (hexadecimal x).more (b :: x) := by
  cases x with
  | nil => exact ⟨rfl, (EndsAtFeed.zero []).cons hb⟩
  | cons a x =>
    have hdigit : ∀ c v, Byte.hexValue? c = some v → c ≠ Byte.newline := by
      rintro c v hc rfl
      cases hc
    cases ha : Byte.hexValue? a with
    | none =>
      have hmore : ∀ z, (hexadecimal (a :: z)).more = 1 := by
        intro z
        simp only [hexadecimal, ha]
        rfl
      refine ⟨?_, hmore x ▸ (EndsAtFeed.zero (a :: x)).cons hb⟩
      by_cases hnewline : a = Byte.newline
      · subst hnewline
        rfl
      · rw [withReturns_cons hnewline, hmore, hmore]
    | some v =>
      have hmore : ∀ z, (hexadecimal (a :: z)).more
          = if (z.head?.bind Byte.hexValue?).isSome then 3 else 2 := by
        intro z
        simp only [hexadecimal, ha]
        cases z.head?.bind Byte.hexValue? <;> rfl
      have hnewline := hdigit a v ha
      rw [withReturns_cons hnewline, hmore, hmore]
      cases x with
      | nil => exact ⟨rfl, ((EndsAtFeed.zero []).cons hnewline).cons hb⟩
      | cons c x =>
        have hhead : (withReturns (c :: x)).head?.bind Byte.hexValue? = Byte.hexValue? c := by
          by_cases hc : c = Byte.newline
          · subst hc
            rfl
          · rw [withReturns_cons hc]
            rfl
        rw [hhead]
        refine ⟨rfl, ?_⟩
        split
        · rename_i hsome
          obtain ⟨w, hw⟩ := Option.isSome_iff_exists.mp hsome
          exact (((EndsAtFeed.zero x).cons (hdigit c w hw)).cons hnewline).cons hb
        · exact ((EndsAtFeed.zero (c :: x)).cons hnewline).cons hb

/-- The byte that an escape takes whatever it is may be a line feed, or the return in front of
one. -/
theorem more_controlled_withReturns {more : Nat} {front : List Byte}
    (hfront : Byte.newline ∉ front) (hmore : front.length = more) (x : List Byte) :
    (controlled more (withReturns x)).more = (controlled more x).more
      ∧ EndsAtFeed (controlled more x).more (front ++ x) := by
  subst hmore
  cases x with
  | nil => exact ⟨rfl, front, [], hfront, .inl ⟨rfl, rfl⟩⟩
  | cons b x =>
    by_cases hb : b = Byte.newline
    · subst hb
      exact ⟨rfl, front, x, hfront, .inr ⟨rfl, rfl⟩⟩
    · rw [withReturns_cons hb]
      refine ⟨rfl, front ++ [b], x, ?_, .inl ⟨?_, ?_⟩⟩
      · rw [List.mem_append, not_or, List.mem_singleton]
        exact ⟨hfront, Ne.symm hb⟩
      · rw [List.append_assoc]
        rfl
      · rw [List.length_append]
        rfl

theorem more_longControl_withReturns {b : Byte} (hb : b ≠ Byte.newline) (x : List Byte) :
    (longControl (withReturns x)).more = (longControl x).more
      ∧ EndsAtFeed (longControl x).more (b :: x) := by
  have hother : ∀ z : List Byte, z.head? ≠ some 0x2D → (longControl z).more = 1 := by
    intro z hz
    rw [longControl.eq_def]
    split
    · exact absurd rfl hz
    · rfl
  by_cases hhyphen : x.head? = some 0x2D
  · obtain ⟨rest, rfl⟩ : ∃ rest, x = 0x2D :: rest := List.head?_eq_some_iff.mp hhyphen
    have hfront : Byte.newline ∉ [b, 0x2D] := by
      rw [List.mem_cons, not_or]
      exact ⟨Ne.symm hb, by decide⟩
    rw [withReturns_cons (by decide)]
    exact more_controlled_withReturns hfront rfl rest
  · have hreturns : (withReturns x).head? ≠ some 0x2D := by
      cases x with
      | nil => exact hhyphen
      | cons a x =>
        by_cases ha : a = Byte.newline
        · subst ha
          exact fun h => by cases h
        · rwa [withReturns_cons ha]
    rw [hother x hhyphen, hother _ hreturns]
    exact ⟨rfl, (EndsAtFeed.zero x).cons hb⟩

/-- **An escape has as many bytes in both scripts.** It may take a line feed in one and the return
in front of it in the other, but nothing behind that. -/
theorem more_read_withReturns (x : List Byte) :
    (read (withReturns x)).more = (read x).more ∧ EndsAtFeed (read x).more x := by
  cases x with
  | nil => exact ⟨rfl, .zero []⟩
  | cons b x =>
    by_cases hb : b = Byte.newline
    · subst hb
      exact ⟨rfl, .newline x⟩
    have hoctal := more_octal_withReturns (b :: x)
    rw [withReturns_cons hb] at hoctal ⊢
    have hone : EndsAtFeed 1 (b :: x) := (EndsAtFeed.zero x).cons hb
    have hfront : Byte.newline ∉ [b] := by simpa using Ne.symm hb
    simp only [read]
    -- Each test is of the first byte, so it comes out alike.
    split
    · exact ⟨rfl, hone⟩
    split
    · exact ⟨rfl, hone⟩
    split
    · exact hoctal
    split
    · exact more_hexadecimal_withReturns hb x
    split
    · exact more_longControl_withReturns hb x
    split
    · exact more_controlled_withReturns hfront rfl x
    · exact ⟨rfl, hone⟩

end Escape

/-! ### Where a text stops -/

namespace Style

/-- What closes a text can be in a script: neither a line feed nor a carriage return, nor a line
with one of them. -/
def ClosesInLine : Style → Prop
  | verbatim close | decoded close => close ≠ Byte.newline ∧ close ≠ 0x0D
  | verbatimLines close | decodedLines close => close.InLine

variable {style : Style} {lineStart : Bool}

/-- A line feed and a carriage return stand for themselves. -/
theorem piece_newline (style : Style) (x : List Byte) :
    style.piece Byte.newline x = .plain Byte.newline := by
  cases style with
  | verbatim close => cases x <;> rfl
  | decoded close | verbatimLines close | decodedLines close => rfl

theorem piece_return (style : Style) (x : List Byte) : style.piece 0x0D x = .plain 0x0D := by
  cases style with
  | verbatim close => cases x <;> rfl
  | decoded close | verbatimLines close | decodedLines close => rfl

/-- A piece has as many bytes in both scripts. -/
theorem more_piece_withReturns (hstyle : style.ClosesInLine) (b : Byte) (x : List Byte) :
    (style.piece b (withReturns x)).more = (style.piece b x).more
      ∧ EndsAtFeed (style.piece b x).more x := by
  cases style with
  | verbatimLines close => exact ⟨rfl, .zero x⟩
  | decoded close | decodedLines close =>
    simp only [piece]
    split
    · exact Escape.more_read_withReturns x
    · exact ⟨rfl, .zero x⟩
  | verbatim close =>
    cases x with
    | nil => exact ⟨rfl, .zero []⟩
    | cons c x =>
      by_cases hc : c = Byte.newline
      · subst hc
        have hnewline : (Byte.newline == close) = false := beq_eq_false_iff_ne.mpr hstyle.1.symm
        have hreturn : ((0x0D : Byte) == close) = false := beq_eq_false_iff_ne.mpr hstyle.2.symm
        have hplain : shielded close b (Byte.newline :: x) = .plain b := by
          have hbackslash : (Byte.newline == Byte.ofChar '\\') = false := rfl
          rw [shielded, hbackslash, hnewline, Bool.or_false, Bool.and_false]
          rfl
        have hplain' : shielded close b (0x0D :: Byte.newline :: withReturns x) = .plain b := by
          have hbackslash : ((0x0D : Byte) == Byte.ofChar '\\') = false := rfl
          rw [shielded, hbackslash, hreturn, Bool.or_false, Bool.and_false]
          rfl
        rw [withReturns_newline, piece, piece, hplain, hplain']
        exact ⟨rfl, .zero _⟩
      · rw [withReturns_cons hc, piece, piece, shielded, shielded]
        split
        · exact ⟨rfl, (EndsAtFeed.zero x).cons hc⟩
        · exact ⟨rfl, .zero _⟩

/-- Text stops at no line feed. -/
theorem stop?_newline (hstyle : style.ClosesInLine) (lineStart : Bool) (x : List Byte) :
    style.stop? lineStart (Byte.newline :: x) = none := by
  have hclose : style.close? lineStart (Byte.newline :: x) = none := by
    cases style with
    | verbatim close | decoded close =>
      exact if_neg fun h => hstyle.1 (Option.some.inj h).symm
    | verbatimLines close | decodedLines close =>
      rw [close?, TerminatorLine.InLine.read?_newline hstyle]
      split <;> rfl
  have hintroducer : Introducer.read? (Byte.newline :: x) = none := rfl
  rw [stop?, hclose, hintroducer, Option.isSome_none, Bool.and_false]
  rfl

/-- What closes a text closes it in both scripts. -/
theorem close?_withReturns (hstyle : style.ClosesInLine) (lineStart : Bool) (h : 0x0D ∉ x) :
    style.close? lineStart (withReturns x) = style.close? lineStart x := by
  cases style with
  | verbatim close | decoded close =>
    have hhead : (withReturns x).head? = some close ↔ x.head? = some close := by
      cases x with
      | nil => exact Iff.rfl
      | cons b x =>
        by_cases hb : b = Byte.newline
        · subst hb
          exact iff_of_false (fun h => hstyle.2 (Option.some.inj h).symm)
            fun h => hstyle.1 (Option.some.inj h).symm
        · rw [withReturns_cons hb]
          exact Iff.rfl
    simp only [close?, hhead]
  | verbatimLines close | decodedLines close =>
    rw [close?, close?, TerminatorLine.read?_withReturns hstyle h]

/-- **A text stops at a byte in both scripts or in neither.** -/
theorem stop?_withReturns (hstyle : style.ClosesInLine) (lineStart : Bool) (h : 0x0D ∉ x) :
    style.stop? lineStart (withReturns x) = style.stop? lineStart x := by
  rw [stop?, stop?, close?_withReturns hstyle lineStart h,
    Introducer.read?_congr (SameWord.withReturns x)]

/-! ### Passages -/

/-- Whether an escape hides a line that closes the text, by taking the line feed in front of it. -/
def hides (style : Style) (lineStart : Bool) (rest : List Byte) : Bool :=
  match style.stop? lineStart rest, rest with
  | none, b :: rest =>
    let more := (style.piece b rest).more
    ((rest.take more).getLast? == some Byte.newline
        && style.close? true (rest.drop more) != style.close? false (rest.drop more))
      || hides style (b == Byte.newline) (rest.drop more)
  | _, _ => false
termination_by rest.length
decreasing_by
  rw [List.length_drop, List.length_cons]
  omega

theorem hides_cons {b : Byte} {rest : List Byte} (h : style.stop? lineStart (b :: rest) = none) :
    style.hides lineStart (b :: rest)
      = ((rest.take (style.piece b rest).more).getLast? == some Byte.newline
          && style.close? true (rest.drop (style.piece b rest).more)
            != style.close? false (rest.drop (style.piece b rest).more)
        || style.hides (b == Byte.newline) (rest.drop (style.piece b rest).more)) := by
  rw [hides.eq_def, h]

/-- Only a text that is closed by a line has a line to hide. -/
theorem hides_of_quoted (hstyle : style.endsWithLine = false) (lineStart : Bool)
    (rest : List Byte) : style.hides lineStart rest = false := by
  have hclose : ∀ z, style.close? true z = style.close? false z := by
    intro z
    cases style with
    | verbatim close | decoded close => rfl
    | verbatimLines close | decodedLines close => cases hstyle
  induction lineStart, rest using passage_induction style with
  | stops hstop => rw [hides.eq_def, hstop]
  | ends hstop => rw [hides.eq_def, hstop]
  | step hstop ih =>
    rw [hides_cons hstop, hclose, bne_self_eq_false, Bool.and_false, ih]
    rfl

/-- Where no line closes the text, it does not matter whether one starts. -/
theorem passage_lineStart {x : List Byte} (h : style.close? true x = style.close? false x) :
    style.passage true x = style.passage false x := by
  have hstop : style.stop? true x = style.stop? false x := by rw [stop?, stop?, h]
  rw [passage.eq_def, passage.eq_def style false, hstop]

end Style

/-- Passages at the front of `x` and of the script with returns stop for the same reason, at the
same place. -/
structure Passage.Returned (x : List Byte) (p p' : Passage) : Prop where
  stop : p'.stop = p.stop
  length : p'.length = (withReturns (x.take p.length)).length

namespace Passage.Returned

variable {b : Byte} {p p' : Passage} {q q' : Piece}

/-- The return in front of a line feed is a piece of its own. -/
theorem newline (h : Returned x p p') :
    Returned (Byte.newline :: x) (p.behind (.plain Byte.newline))
      ((p'.behind (.plain Byte.newline)).behind (.plain 0x0D)) where
  stop := h.stop
  length := by
    simp only [behind, Piece.plain, Piece.length, h.length]
    rw [Nat.add_comm (0 + 1) p.length, List.take_succ_cons, withReturns_newline, List.length_cons,
      List.length_cons]
    omega

/-- The bytes of a piece that does not begin with a line feed, and of what is read behind it. -/
theorem length_behind (hb : b ≠ Byte.newline) (q : Piece) (p : Passage) (x : List Byte) :
    (withReturns ((b :: x).take (p.behind q).length)).length
      = (withReturns (x.take q.more)).length + 1
        + (withReturns ((x.drop q.more).take p.length)).length := by
  rw [behind, Piece.length, Nat.add_right_comm, List.take_succ_cons, withReturns_cons hb,
    List.length_cons, length_withReturns_take_add, Nat.add_right_comm]

/-- A piece in which no line ends is as long in both scripts. -/
theorem piece (hb : b ≠ Byte.newline) (hmore : q'.more = q.more)
    (hline : (withReturns (x.take q.more)).length = q.more) (h : Returned (x.drop q.more) p p') :
    Returned (b :: x) (p.behind q) (p'.behind q') where
  stop := h.stop
  length := by
    rw [length_behind hb, hline, ← h.length, behind, Piece.length, hmore]

/-- Behind a piece that takes the return in one script and the line feed in the other, the line feed
is left. -/
theorem feed (hb : b ≠ Byte.newline) (hmore : q'.more = q.more)
    (hline : (withReturns (x.take q.more)).length = q.more + 1)
    (h : Returned (x.drop q.more) p p') :
    Returned (b :: x) (p.behind q) ((p'.behind (.plain Byte.newline)).behind q') where
  stop := h.stop
  length := by
    rw [length_behind hb, hline, ← h.length]
    simp only [behind, Piece.length, Piece.plain, hmore]
    omega

end Passage.Returned

namespace Style

variable {style : Style} {lineStart : Bool}

/-- A line feed is a piece of its own, and starts a line. -/
theorem passage_newline (hstyle : style.ClosesInLine) (lineStart : Bool) (x : List Byte) :
    style.passage lineStart (Byte.newline :: x)
      = (style.passage true x).behind (.plain Byte.newline) := by
  rw [passage_cons (stop?_newline hstyle lineStart x), piece_newline]
  rfl

theorem passage_return (hstyle : style.ClosesInLine) (lineStart : Bool) (hreturn : 0x0D ∉ x) :
    style.passage lineStart (withReturns (Byte.newline :: x))
      = ((style.passage true (withReturns x)).behind (.plain Byte.newline)).behind
          (.plain 0x0D) := by
  have hline : 0x0D ∉ Byte.newline :: x := by
    rw [List.mem_cons, not_or]
    exact ⟨by decide, hreturn⟩
  have hstop : style.stop? lineStart (withReturns (Byte.newline :: x)) = none :=
    (stop?_withReturns hstyle lineStart hline).trans (stop?_newline hstyle lineStart x)
  rw [withReturns_newline] at hstop ⊢
  rw [passage_cons hstop, piece_return, Piece.plain, List.drop_zero, passage_newline hstyle]

/-- **A passage is read alike in both scripts,** unless an escape hides the line that closes it. -/
theorem passage_withReturns (hstyle : style.ClosesInLine) (lineStart : Bool) (hreturn : 0x0D ∉ x)
    (hhides : style.hides lineStart x = false) :
    (style.passage lineStart x).Returned x (style.passage lineStart (withReturns x)) := by
  induction lineStart, x using passage_induction style with
  | stops hstop =>
    rw [passage_of_stop ((stop?_withReturns hstyle _ hreturn).trans hstop)]
    exact ⟨rfl, rfl⟩
  | ends hstop =>
    rw [withReturns_nil, passage_nil hstop]
    exact ⟨rfl, rfl⟩
  | @step lineStart b rest hstop ih =>
    have hstop' := (stop?_withReturns hstyle lineStart hreturn).trans hstop
    rw [hides_cons hstop, Bool.or_eq_false_iff] at hhides
    rw [List.mem_cons, not_or] at hreturn
    have hbehind : 0x0D ∉ rest.drop (style.piece b rest).more :=
      fun hmem => hreturn.2 (List.mem_of_mem_drop hmem)
    have hpassage := ih hbehind hhides.2
    by_cases hb : b = Byte.newline
    · subst hb
      rw [piece_newline] at hpassage ⊢
      rw [passage_return hstyle lineStart hreturn.2]
      exact hpassage.newline
    · obtain ⟨hmore, hends⟩ := more_piece_withReturns hstyle b rest
      rw [withReturns_cons hb] at hstop' ⊢
      rw [passage_cons hstop', hmore]
      rw [beq_eq_false_iff_ne.mpr hb] at hpassage ⊢
      rcases hends.drop_withReturns with ⟨hline, hdrop⟩ | ⟨hline, hlast, hdrop⟩
      · rw [hdrop]
        exact hpassage.piece hb hmore hline
      · -- The line feed that the escape takes in one script stands for itself in the other. So a
        -- line starts behind it there, but no line that closes the text.
        have hcloses : style.close? true (rest.drop (style.piece b rest).more)
            = style.close? false (rest.drop (style.piece b rest).more) := by
          simpa [hlast] using hhides.1
        rw [← close?_withReturns hstyle true hbehind, ← close?_withReturns hstyle false hbehind]
          at hcloses
        rw [hdrop, passage_newline hstyle, passage_lineStart hcloses]
        exact hpassage.feed hb hmore hline

/-- What closes a text has no line feed. -/
theorem newline_notMem_close (hstyle : style.ClosesInLine) {n : Nat}
    (h : style.close? lineStart x = some n) : Byte.newline ∉ x.take n := by
  have hbyte : ∀ close : Byte, close ≠ Byte.newline →
      (if x.head? = some close then some 1 else none) = some n → Byte.newline ∉ x.take n := by
    intro close hclose h
    split at h
    · rename_i hhead
      cases h
      obtain ⟨rest, rfl⟩ := List.head?_eq_some_iff.mp hhead
      simpa using Ne.symm hclose
    · cases h
  have hline : ∀ close : TerminatorLine, close.InLine →
      (if lineStart then close.read? x else none) = some n → Byte.newline ∉ x.take n := by
    intro close hclose h
    split at h
    · exact hclose.newline_notMem h
    · cases h
  cases style with
  | verbatim close | decoded close => exact hbyte close hstyle.1 h
  | verbatimLines close | decodedLines close => exact hline close hstyle h

/-- **A passage and what closes it are read alike in both scripts,** on the same condition. -/
theorem length_stop_withReturns (hstyle : style.ClosesInLine) (lineStart : Bool)
    (hreturn : 0x0D ∉ x) (hhides : style.hides lineStart x = false) :
    (style.passage lineStart (withReturns x)).stop = (style.passage lineStart x).stop
      ∧ (style.passage lineStart (withReturns x)).length
          + (style.passage lineStart (withReturns x)).stop.length
        = (withReturns (x.take ((style.passage lineStart x).length
            + (style.passage lineStart x).stop.length))).length := by
  obtain ⟨hstop, hlength⟩ := passage_withReturns hstyle lineStart hreturn hhides
  refine ⟨hstop, ?_⟩
  have hle := length_stop_le style lineStart x
  have hclosing : Byte.newline ∉ (x.drop (style.passage lineStart x).length).take
      (style.passage lineStart x).stop.length := by
    rcases passage_stop_cases style lineStart x with ⟨lineStart', hstop⟩ | ⟨hstop, -⟩
    · rcases stop?_cases hstop with ⟨n, hclosed, hn⟩ | ⟨hinterpolation, -⟩
      · rw [hclosed]
        exact newline_notMem_close hstyle hn
      · rw [hinterpolation]
        exact List.not_mem_nil
    · rw [hstop]
      exact List.not_mem_nil
  have hbehind : (style.passage lineStart x).stop.length
      ≤ (x.drop (style.passage lineStart x).length).length := by
    rw [List.length_drop]
    omega
  rw [hstop, hlength, length_withReturns_take_add, length_withReturns_take hbehind hclosing]

end Style

end ScriptLexer
