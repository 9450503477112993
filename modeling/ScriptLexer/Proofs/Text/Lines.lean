import Mathlib.Data.List.Basic
import ScriptLexer.Proofs.Text.Append
import ScriptLexer.Proofs.Text.Reference

/-!
# Lines of text

The body of a heredoc is read line by line: it is closed where one of its lines is the identifier.
Here it is said what a body is read as, in terms of its lines and of the text alone.

The lines of a verbatim body are those of the script. A decoded body is read as the same bytes are
between two quotes, and the line feed in front of the closing line is one byte more. Its lines are
those of the text: an escape may take a line feed, and what stands behind it is no line then. That
the two readings come to the same needs care where the text ends: in one of them a quote is ahead
there, in the other a line feed, and neither means anything to an escape or an introducer in front
of it.

## Main definitions

* `Reference.lines` — where the lines of a decoded text begin
* `Byte.isInert` — bytes that mean nothing to what stands in front of them
* `Style.Fills` — bytes that are the whole text of a literal

## Main results

* `Style.passage_verbatimLines` — a verbatim body is read as it is, up to its closing line
* `Style.passage_decodedLines` — a decoded body is read as a quoted text of the same bytes
-/

namespace ScriptLexer

/-! ### Plain bytes -/

namespace Passage

/-- A passage with bytes in front of it that stand for themselves. -/
def behindBytes (bytes : List Byte) (q : Passage) : Passage :=
  ⟨bytes ++ q.text, bytes.length + q.length, q.stop, q.fault.map (·.shift bytes.length)⟩

theorem behind_plain (b : Byte) (q : Passage) : q.behind (.plain b) = q.behindBytes [b] :=
  rfl

theorem behindBytes_behindBytes (front bytes : List Byte) (q : Passage) :
    (q.behindBytes bytes).behindBytes front = q.behindBytes (front ++ bytes) := by
  simp [behindBytes, Diagnostic.shift_shift, Function.comp_def, Nat.add_assoc]

/-- A passage that has a line feed behind it, and is closed by `n` bytes behind that. -/
def withLineEnd (n : Nat) (p : Passage) : Passage :=
  ⟨p.text ++ [Byte.newline], p.length + 1, .closed n, p.fault⟩

theorem withLineEnd_behind (n : Nat) (piece : Piece) (p : Passage) :
    (p.behind piece).withLineEnd n = (p.withLineEnd n).behind piece := by
  simp [withLineEnd, behind, Nat.add_assoc]

end Passage

/-- Bytes of a decoded text that neither close it nor begin an escape or an introducer stand for
themselves. -/
theorem Style.passage_decoded_bytes {close : Byte} {bytes : List Byte}
    (hbytes : ∀ b ∈ bytes, b ≠ close ∧ b ≠ Byte.ofChar '#' ∧ b ≠ Byte.ofChar '\\')
    (lineStart : Bool) (rest : List Byte) :
    (decoded close).passage lineStart (bytes ++ rest)
      = ((decoded close).passage lineStart rest).behindBytes bytes := by
  rw [passage_decoded, passage_decoded]
  induction bytes with
  | nil => simp [Passage.behindBytes, Diagnostic.shift]
  | cons b bytes ih =>
    rw [List.forall_mem_cons] at hbytes
    obtain ⟨⟨hclose, hhash, hbackslash⟩, hbytes⟩ := hbytes
    have hintroduces : ¬ Reference.introduces (b :: (bytes ++ rest)) := by
      cases hrest : bytes ++ rest <;> simp [Reference.introduces, hhash]
    rw [List.cons_append, Reference.decode, if_neg hclose, if_neg hintroduces, if_neg hbackslash,
      ih hbytes]
    exact Passage.behindBytes_behindBytes [b] bytes _

/-! ### Verbatim lines -/

namespace TerminatorLine

variable {identifier line rest : List Byte}

/-- A line closes a heredoc if it is the identifier and what ends a line. -/
theorem read?_append (hends : Line.endsHere rest) :
    read? ⟨identifier, false⟩ (identifier ++ rest) = some identifier.length := by
  simp [read?, Line.behind?_append, hends]

/-- A line that is not the identifier and what ends a line closes no heredoc. -/
theorem read?_eq_none (h : ∀ behind, Line.endsHere behind → rest ≠ identifier ++ behind) :
    read? ⟨identifier, false⟩ rest = none := by
  refine if_neg fun hfound => ?_
  obtain ⟨behind, hbehind, hends⟩ := (Option.any_eq_true ..).mp hfound
  exact h behind hends (Line.eq_append_of_behind? hbehind)

/-- What stands behind the end of a line does not matter. -/
theorem read?_lineEnd (hidentifier : Byte.newline ∉ identifier) (line rest : List Byte) :
    read? ⟨identifier, false⟩ (line ++ Byte.newline :: rest)
      = read? ⟨identifier, false⟩ (line ++ [Byte.newline]) := by
  have hends : Line.startsBehind (line ++ [Byte.newline]) := by simp [Line.startsBehind]
  have hsame := SameLine.append (by simp) hends rest
  rw [List.append_assoc, List.singleton_append] at hsame
  exact (read?_congr hidentifier hsame).symm

/-- A line of other bytes than the identifier closes no heredoc. -/
theorem read?_line (hidentifier : Byte.newline ∉ identifier) (hline : Byte.newline ∉ line)
    (hne : line ≠ identifier) (hreturn : line ≠ identifier ++ [0x0D]) (rest : List Byte) :
    read? ⟨identifier, false⟩ (line ++ Byte.newline :: rest) = none := by
  have hunique : ∀ front behind, line ++ [Byte.newline] = front ++ Byte.newline :: behind →
      line = front := fun front behind heq =>
    ((List.append_cons_inj_of_notMem hline List.not_mem_nil).mp heq).1
  rw [read?_lineEnd hidentifier]
  refine read?_eq_none fun behind hends heq => ?_
  rw [Line.endsHere.eq_def] at hends
  split at hends
  · rw [List.append_nil] at heq
    exact hidentifier (heq ▸ by simp)
  · exact hne (hunique _ _ heq)
  · rename_i behind
    refine hreturn (hunique (identifier ++ [0x0D]) behind ?_)
    rw [heq, List.append_assoc]
    rfl
  · cases hends

end TerminatorLine

namespace Style

variable {close : TerminatorLine} {lineStart : Bool} {line rest : List Byte}

theorem stop?_verbatimLines (hopen : lineStart → close.read? rest = none) :
    (verbatimLines close).stop? lineStart rest = none := by
  cases lineStart with
  | false => rfl
  | true => simp [stop?, close?, decodes, hopen rfl]

/-- A verbatim line that closes nothing is read as it is. -/
theorem passage_verbatimLine (hline : Byte.newline ∉ line)
    (hopen : lineStart → close.read? (line ++ Byte.newline :: rest) = none) :
    (verbatimLines close).passage lineStart (line ++ Byte.newline :: rest)
      = ((verbatimLines close).passage true rest).behindBytes (line ++ [Byte.newline]) := by
  induction line generalizing lineStart with
  | nil =>
    rw [List.nil_append, passage_cons (stop?_verbatimLines hopen)]
    rfl
  | cons b line ih =>
    rw [List.mem_cons, not_or] at hline
    have hb : (b == Byte.newline) = false := by simpa using Ne.symm hline.1
    have hbehind : (verbatimLines close).passage false (line ++ Byte.newline :: rest) = _ :=
      ih hline.2 (fun hstart => by cases hstart)
    rw [List.cons_append] at hopen ⊢
    rw [passage_cons (stop?_verbatimLines hopen), hb]
    show ((verbatimLines close).passage false (line ++ Byte.newline :: rest)).behind (.plain b) = _
    rw [hbehind, Passage.behind_plain, Passage.behindBytes_behindBytes]
    rfl

/-- **A verbatim body is read as it is, up to its closing line.** -/
theorem passage_verbatimLines {lines : List (List Byte)} {n : Nat}
    (hlines : ∀ line ∈ lines, Byte.newline ∉ line
      ∧ ∀ rest, close.read? (line ++ Byte.newline :: rest) = none)
    (hclose : close.read? rest = some n) :
    (verbatimLines close).passage true (lines.flatMap (· ++ [Byte.newline]) ++ rest)
      = (Passage.empty (.closed n)).behindBytes (lines.flatMap (· ++ [Byte.newline])) := by
  induction lines with
  | nil =>
    have hstop : (verbatimLines close).stop? true rest = some (.closed n) := by
      simp [stop?, close?, hclose]
    exact passage_of_stop hstop
  | cons line lines ih =>
    rw [List.forall_mem_cons] at hlines
    obtain ⟨⟨hline, hopen⟩, hlines⟩ := hlines
    have hsplit : (line :: lines).flatMap (· ++ [Byte.newline]) ++ rest
        = line ++ Byte.newline :: (lines.flatMap (· ++ [Byte.newline]) ++ rest) := by simp
    rw [hsplit, passage_verbatimLine hline fun _ => hopen _, ih hlines,
      Passage.behindBytes_behindBytes, List.flatMap_cons]

end Style

/-! ### Bytes that mean nothing to what stands in front of them -/

/-- Whether a byte means nothing to an escape or an introducer in front of it: it is no digit, no
letter, and none of the signs that stand within them. -/
def Byte.isInert (b : Byte) : Bool :=
  !isIdentContinue b && b != ofChar '-' && b != ofChar '#' && b != ofChar '\x7b'
    && b != ofChar '$' && b != ofChar '@'

theorem Byte.not_isHexadecimal_of_isInert {b : Byte} (hb : b.isInert) :
    isHexadecimal b = false := by
  simp only [isInert, isIdentContinue, isIdentStart, isLetter, isLowercase, isUppercase, isDecimal,
    isHexadecimal, Bool.and_eq_true, Bool.not_eq_true', Bool.or_eq_false_iff, Bool.and_eq_false_iff,
    decide_eq_false_iff_not, UInt8.le_iff_toNat_le] at hb ⊢
  simp only [UInt8.reduceToNat] at hb ⊢
  omega

theorem Byte.not_isOctal_of_isInert {b : Byte} (hb : b.isInert) : isOctal b = false := by
  simp only [isInert, isIdentContinue, isDecimal, isOctal, Bool.and_eq_true, Bool.not_eq_true',
    Bool.or_eq_false_iff, Bool.and_eq_false_iff, decide_eq_false_iff_not,
    UInt8.le_iff_toNat_le] at hb ⊢
  simp only [UInt8.reduceToNat] at hb ⊢
  omega

variable {u v : Byte} {x y z : List Byte}

/-- A run of bytes ends in front of a byte that is none of its own. -/
theorem Reference.run_append_cons {p : Byte → Bool} (hu : p u = false) (limit : Nat) :
    run p limit (x ++ u :: y) = run p limit x := by
  have htakeWhile : (x ++ u :: y).takeWhile p = x.takeWhile p := by
    induction x with
    | nil => simp [hu]
    | cons b x ih => simp [List.takeWhile_cons, ih]
  rw [run, run, htakeWhile]

/-- **An escape that ends in front of an inert byte is the same in front of another.** -/
theorem Reference.escape_inert (hu : u.isInert) (hv : v.isInert)
    (hends : (escape (x ++ u :: y)).1 ≤ x.length) :
    escape (x ++ v :: z) = escape (x ++ u :: y) := by
  have hhyphen : ∀ {b : Byte}, b.isInert → b ≠ Byte.ofChar '-' := by
    intro b hb
    simp only [Byte.isInert, Bool.and_eq_true, bne_iff_ne, ne_eq] at hb
    exact hb.1.1.1.1.2
  have hoctal : ∀ x, run Byte.isOctal 3 (x ++ v :: z) = run Byte.isOctal 3 (x ++ u :: y) := by
    intro x
    rw [run_append_cons (Byte.not_isOctal_of_isInert hv),
      run_append_cons (Byte.not_isOctal_of_isInert hu)]
  have hhexadecimal : ∀ x, run Byte.isHexadecimal 2 (x ++ v :: z)
      = run Byte.isHexadecimal 2 (x ++ u :: y) := by
    intro x
    rw [run_append_cons (Byte.not_isHexadecimal_of_isInert hv),
      run_append_cons (Byte.not_isHexadecimal_of_isInert hu)]
  rcases x with _ | ⟨b, x⟩
  · have hu' := Byte.not_isOctal_of_isInert hu
    simp only [List.nil_append, escape, hu', List.length_nil] at hends
    grind
  · have h := hoctal (b :: x)
    have h' := hhexadecimal x
    have hu' := hhyphen hu
    have hv' := hhyphen hv
    simp only [List.cons_append] at h hends ⊢
    simp only [escape, h, h'] at hends ⊢
    rcases x with _ | ⟨c, _ | ⟨e, x⟩⟩
    · grind
    · grind
    · rfl

/-- Whether an introducer begins in front of an inert byte is told by what is in front. -/
theorem Reference.introduces_append_cons (hu : u.isInert) :
    introduces (x ++ u :: y) = introduces x := by
  simp only [Byte.isInert, Byte.isIdentContinue, Bool.and_eq_true, Bool.not_eq_true',
    Bool.or_eq_false_iff, bne_iff_ne, ne_eq] at hu
  obtain ⟨⟨⟨⟨⟨hident, -⟩, hhash⟩, hbrace⟩, hdollar⟩, hat⟩ := hu
  have hat : (u == Byte.ofChar '@') = false := by simpa using hat
  rcases x with _ | ⟨b, _ | ⟨c, _ | ⟨e, _ | ⟨f, x⟩⟩⟩⟩
  · cases y <;> simp [introduces, hhash]
  · simp [introduces, hbrace, hdollar, hat]
  · simp [introduces, hident, hat]
  · simp [introduces, hident]
  · simp [introduces]

theorem Escape.read_inert (hu : u.isInert) (hv : v.isInert)
    (hends : (read (x ++ u :: y)).more ≤ x.length) :
    read (x ++ v :: z) = read (x ++ u :: y) := by
  have hescape : Reference.escape (x ++ v :: z) = Reference.escape (x ++ u :: y) := by
    refine Reference.escape_inert hu hv ?_
    rwa [read_eq_reference]
  rw [read_eq_reference, read_eq_reference] at hescape
  obtain ⟨hmore, hvalue, hmalformation⟩ : _ ∧ _ ∧ _ := by simpa only [Prod.mk.injEq] using hescape
  generalize read (x ++ v :: z) = p at hmore hvalue hmalformation
  generalize read (x ++ u :: y) = q at hmore hvalue hmalformation
  obtain ⟨more, value, malformation⟩ := p
  obtain ⟨more', value', malformation'⟩ := q
  cases value <;> cases value' <;> simp_all

/-! ### Decoded lines -/

namespace Reference

/-- The lines of a decoded text but its first: what stands behind each line feed that no escape
takes. -/
def linesBehind : List Byte → List (List Byte)
  | [] => []
  | b :: rest =>
    if b = Byte.ofChar '\\' then linesBehind (rest.drop (escape rest).1)
    else if b = Byte.newline then rest :: linesBehind rest
    else linesBehind rest
termination_by text => text.length
decreasing_by
  all_goals simp only [List.length_drop, List.length_cons]; omega

/-- Where the lines of a decoded text begin: each is the text from there on. -/
def lines (text : List Byte) : List (List Byte) :=
  text :: linesBehind text

end Reference

namespace Style

/-- The lines of a decoded text follow its pieces. -/
theorem linesBehind_cons (quote b : Byte) (rest : List Byte) :
    Reference.linesBehind (b :: rest)
      = (if b = Byte.newline then [rest] else [])
        ++ Reference.linesBehind (rest.drop ((decoded quote).piece b rest).more) := by
  rw [Reference.linesBehind]
  by_cases hb : b = Byte.ofChar '\\'
  · rw [hb, if_pos rfl, Escape.read_eq_reference]
    rfl
  · have hpiece : (decoded quote).piece b rest = .plain b := by simp [piece, hb]
    rw [if_neg hb, hpiece]
    by_cases hline : b = Byte.newline
    · rw [if_pos hline, if_pos hline]
      rfl
    · rw [if_neg hline, if_neg hline]
      rfl

variable {identifier behind bytes : List Byte} {lineStart : Bool} {quote : Byte}

/-- The bytes fill a text that `quote` closes: the first `quote` that closes it is the one behind
them. -/
structure Fills (quote : Byte) (lineStart : Bool) (bytes : List Byte) : Prop where
  stop : ((decoded quote).passage lineStart (bytes ++ [quote])).stop = .closed 1
  length : ((decoded quote).passage lineStart (bytes ++ [quote])).length = bytes.length

/-- Bytes that fill a text do not begin with an introducer. -/
theorem Fills.introduces_eq_false (h : Fills quote lineStart bytes) (hquote : quote.isInert) :
    Reference.introduces bytes = false := by
  rw [← Reference.introduces_append_cons hquote (y := [])]
  by_contra hintroduces
  rw [Bool.not_eq_false] at hintroduces
  have hhead : (bytes ++ [quote]).head? ≠ some quote := by
    intro hhead
    obtain ⟨tail, htail⟩ := List.head?_eq_some_iff.mp hhead
    rw [htail, ← List.nil_append (quote :: tail),
      Reference.introduces_append_cons hquote] at hintroduces
    cases hintroduces
  have hinterpolation : (decoded quote).stop? lineStart (bytes ++ [quote])
      = some .interpolation := by
    rw [stop?_decoded, if_neg hhead, if_pos hintroduces]
  have hstop := h.stop
  rw [passage_of_stop hinterpolation] at hstop
  cases hstop

/-- **Bytes that fill a text are a piece and bytes that fill the rest.** -/
theorem Fills.cons_inv {b : Byte} {piece : Piece} (h : Fills quote lineStart (b :: bytes))
    (hpiece : (decoded quote).piece b (bytes ++ [quote]) = piece) :
    piece.more ≤ bytes.length ∧ Fills quote (b == Byte.newline) (bytes.drop piece.more)
      ∧ (decoded quote).passage lineStart (b :: bytes ++ [quote])
        = ((decoded quote).passage (b == Byte.newline)
            (bytes.drop piece.more ++ [quote])).behind piece := by
  obtain ⟨hstop, hlength⟩ := h
  have hopen : (decoded quote).stop? lineStart (b :: (bytes ++ [quote])) = none := by
    cases hstops : (decoded quote).stop? lineStart (b :: (bytes ++ [quote])) with
    | none => rfl
    | some stop =>
      rw [List.cons_append, passage_of_stop hstops] at hlength
      cases hlength
  have hpassage := passage_cons hopen
  rw [hpiece] at hpassage
  rw [List.cons_append, hpassage] at hstop hlength
  simp only [Passage.behind, Piece.length, List.length_cons] at hlength
  have hmore : piece.more ≤ bytes.length := by omega
  rw [List.drop_append_of_le_length hmore] at hpassage hstop hlength
  refine ⟨hmore, ⟨hstop, ?_⟩, hpassage⟩
  rw [List.length_drop]
  omega

/-- A piece that ends in front of an inert byte is the same in front of another. -/
theorem piece_inert {u v b : Byte} (hu : u.isInert) (hv : v.isInert) {y z : List Byte}
    (hends : ((decoded quote).piece b (bytes ++ u :: y)).more ≤ bytes.length) :
    (decoded quote).piece b (bytes ++ v :: z) = (decoded quote).piece b (bytes ++ u :: y) := by
  by_cases hb : b = Byte.ofChar '\\'
  · subst hb
    exact Escape.read_inert hu hv hends
  · simp [piece, hb]

/-- In front of a line feed nothing closes a decoded body or interrupts it, if nothing does so in
the text before. -/
theorem stop?_decodedLines (hidentifier : Byte.newline ∉ identifier)
    (hopen : lineStart → TerminatorLine.read? ⟨identifier, false⟩ (bytes ++ [Byte.newline]) = none)
    (hbytes : Reference.introduces bytes = false) (behind : List Byte) :
    (decodedLines ⟨identifier, false⟩).stop? lineStart (bytes ++ Byte.newline :: behind)
      = none := by
  have hclose : (decodedLines ⟨identifier, false⟩).close? lineStart
      (bytes ++ Byte.newline :: behind) = none := by
    rw [close?, TerminatorLine.read?_lineEnd hidentifier]
    cases lineStart with
    | false => rfl
    | true => exact hopen rfl
  have hnewline : Byte.newline.isInert := by decide
  rw [stop?, hclose, Introducer.isSome_read?, Reference.introduces_append_cons hnewline, hbytes]
  rfl

/-- A decoded body, from where the lines that are still to come close nothing. -/
theorem passage_decodedLines_from (hquote : quote.isInert)
    (hidentifier : Byte.newline ∉ identifier) (hends : Line.endsHere behind)
    (hfills : Fills quote lineStart bytes)
    (hopen : lineStart → TerminatorLine.read? ⟨identifier, false⟩ (bytes ++ [Byte.newline]) = none)
    (hlines : ∀ line ∈ Reference.linesBehind (bytes ++ [Byte.newline]),
      TerminatorLine.read? ⟨identifier, false⟩ line = none) :
    (decodedLines ⟨identifier, false⟩).passage lineStart
        (bytes ++ Byte.newline :: (identifier ++ behind))
      = ((decoded quote).passage lineStart (bytes ++ [quote])).withLineEnd identifier.length := by
  induction hn : bytes.length using Nat.strong_induction_on generalizing bytes lineStart with
  | _ n ih =>
  have hfeed := stop?_decodedLines hidentifier hopen (hfills.introduces_eq_false hquote)
    (identifier ++ behind)
  cases bytes with
  | nil =>
    have hclosed : (decodedLines ⟨identifier, false⟩).stop? true (identifier ++ behind)
        = some (.closed identifier.length) := by
      simp [stop?, close?, TerminatorLine.read?_append hends]
    have hquoted : (decoded quote).stop? lineStart [quote] = some (.closed 1) := by
      simp [stop?, close?]
    rw [List.nil_append] at hfeed ⊢
    rw [passage_cons hfeed, List.nil_append, passage_of_stop hquoted]
    show ((decodedLines ⟨identifier, false⟩).passage true (identifier ++ behind)).behind _ = _
    rw [passage_of_stop hclosed]
    rfl
  | cons b bytes =>
    obtain ⟨hmore, hbehind, hpassage⟩ := hfills.cons_inv rfl
    -- The piece lies within the bytes, so it is the same in front of a quote and of a line feed.
    have hpiece : ∀ rest, (decoded quote).piece b (bytes ++ Byte.newline :: rest)
        = (decoded quote).piece b (bytes ++ [quote]) := by
      intro rest
      exact piece_inert hquote (show Byte.newline.isInert by decide) hmore
    rw [List.cons_append, linesBehind_cons quote, hpiece, List.drop_append_of_le_length hmore,
      List.forall_mem_append] at hlines
    have hopen' : (b == Byte.newline) = true → TerminatorLine.read? ⟨identifier, false⟩
        (bytes.drop ((decoded quote).piece b (bytes ++ [quote])).more ++ [Byte.newline])
          = none := by
      intro hb
      obtain rfl : b = Byte.newline := by simpa using hb
      exact hlines.1 _ List.mem_cons_self
    have hshorter : (bytes.drop ((decoded quote).piece b (bytes ++ [quote])).more).length < n := by
      rw [List.length_drop, ← hn, List.length_cons]
      omega
    rw [List.cons_append] at hfeed
    rw [hpassage, Passage.withLineEnd_behind, ← ih _ hshorter hbehind hopen' hlines.2 rfl,
      List.cons_append, passage_cons hfeed]
    show ((decodedLines ⟨identifier, false⟩).passage (b == Byte.newline)
      ((bytes ++ Byte.newline :: (identifier ++ behind)).drop
        ((decoded quote).piece b (bytes ++ Byte.newline :: (identifier ++ behind))).more)).behind
        ((decoded quote).piece b (bytes ++ Byte.newline :: (identifier ++ behind))) = _
    rw [hpiece, List.drop_append_of_le_length hmore]

/-- **A decoded body is read as a quoted text of the same bytes,** with the line feed in front of
the closing line, if no line of it closes it earlier. -/
theorem passage_decodedLines (hquote : quote.isInert) (hidentifier : Byte.newline ∉ identifier)
    (hends : Line.endsHere behind) (hfills : Fills quote true bytes)
    (hlines : ∀ line ∈ Reference.lines (bytes ++ [Byte.newline]),
      ∀ behind, Line.endsHere behind → line ≠ identifier ++ behind) :
    (decodedLines ⟨identifier, false⟩).passage true
        (bytes ++ Byte.newline :: (identifier ++ behind))
      = ((decoded quote).passage true (bytes ++ [quote])).withLineEnd identifier.length := by
  have hopen : ∀ line ∈ Reference.lines (bytes ++ [Byte.newline]),
      TerminatorLine.read? ⟨identifier, false⟩ line = none :=
    fun line hline => TerminatorLine.read?_eq_none (hlines line hline)
  rw [Reference.lines, List.forall_mem_cons] at hopen
  exact passage_decodedLines_from hquote hidentifier hends hfills (fun _ => hopen.1) hopen.2

end Style

end ScriptLexer
