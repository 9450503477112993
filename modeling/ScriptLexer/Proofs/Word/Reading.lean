import ScriptLexer.Proofs.Lexer.Reading
import ScriptLexer.Proofs.Word.Text

/-!
# Readings on machine words

The readers of tokens as a machine runs them. The bytes of a lexeme are read one after the other,
spans are made of offsets at which the machine has been, and the end of a heredoc's terminator is a
sum.

Under the least that a tape keeps, which is that its offsets are words, each reader has no fault of
its own: it answers as the reader on numbers does, and if that one makes a call outside a contract,
it makes the same.

## Main definitions

* `read` — reads the token that begins here, in the construct of a frame

## Main results

* `verbatim_eq`, `segment_eq`, `bodySegment_eq`, `ofLexeme_eq` — the readers have no fault of their
  own
* `read_eq` — so reading a token has none
-/

namespace ScriptLexer.Word

/-! ### Literals with text -/

/-- The span of the text that was decoded from `start` on. -/
def decodedSpan (start : Nat) (r : Transcript) : Except Fault Span := do
  let stop ← sub r.tape.pos r.skip
  lift (Span.between start stop)

/-- A token whose literal is its own text: the bytes from `start` to the reading offset. -/
def spelled (pos start : Nat) (kind : Kind) (shift : Shift) (t : Tape) : Except Fault Reading :=
  lift (Reading.spelled pos start kind shift t)

/-- Reads the introducer that stands here, if one does. -/
def introducer? (t : Tape) : Except Fault (Option Reading) := do
  match Introducer.read? (← rest t) with
  | none => return none
  | some .statements =>
    let behind ← eat 2 t
    return some ⟨.bare t.pos .insertBegin, .push (.interpolation 0), behind⟩
  | some (.variableName kind length) =>
    let sigil ← eat 1 t
    let behind ← eat length sigil
    let r ← spelled t.pos sigil.pos kind .stay behind
    return some r

/-- Reads verbatim quoted text, whose opener has been read. -/
def verbatim (pos : Nat) (close : Byte) (t : Tape) : Except Fault Reading := do
  let r ← transcribe (.verbatim close) false 0 t
  let span ← decodedSpan t.pos r
  match r.stop with
  | .closed length =>
    let behind ← eat length r.tape
    return .withLiteral pos .string span .stay behind
  | _ => return .withLiteral pos .illegal span .stay (r.tape.noteAt pos .unterminatedString)

/-- Reads a segment of decoded quoted text, whose opener or last introducer has been read. -/
def segment (pos : Nat) (close : Byte) (resumed : Bool) (t : Tape) : Except Fault Reading := do
  let r ← transcribe (.decoded close) false 0 t
  let span ← decodedSpan t.pos r
  match r.stop with
  | .interpolation =>
    let shift : Shift := if resumed then .stay else .push (.quoted close)
    return .withLiteral pos .stringPart span shift r.tape
  | .closed length =>
    let shift : Shift := if resumed then .pop else .stay
    let behind ← eat length r.tape
    return .withLiteral pos .string span shift behind
  | .endOfInput =>
    return .withLiteral pos .illegal span .stay (r.tape.noteAt pos .unterminatedString)

/-- Reads on in a string behind an interpolation. -/
def resumedString (close : Byte) (t : Tape) : Except Fault Reading := do
  match ← introducer? t with
  | some r => return r
  | none => segment t.pos close true t

/-- The style of a heredoc's body. The identifier is sliced from the buffer. -/
def heredocStyle (heredoc : Heredoc) (t : Tape) : Except Fault Style := do
  let identifier ← slice heredoc.identifier t
  let close : TerminatorLine := ⟨identifier, heredoc.indented⟩
  return if heredoc.verbatim then .verbatimLines close else .decodedLines close

/-- Reads a segment of a heredoc's body. What closes it is jumped over. -/
def bodySegment (heredoc : Heredoc) (t : Tape) : Except Fault Reading := do
  let style ← heredocStyle heredoc t
  let lineStart ← isLineStart t.pos t
  let r ← transcribe style lineStart 0 t
  let span ← decodedSpan t.pos r
  match r.stop with
  | .interpolation => return .withLiteral t.pos .heredocPart span .stay r.tape
  | .closed length =>
    let stop ← add offsets r.tape.pos length
    let behind ← advanceTo stop r.tape
    return .withLiteral t.pos .heredocEnd span .pop behind
  | .endOfInput =>
    return .withLiteral t.pos .illegal span .stay (r.tape.noteAt t.pos .unterminatedHeredoc)

/-- Reads on in a heredoc's body. -/
def heredocBody (heredoc : Heredoc) (t : Tape) : Except Fault Reading := do
  if heredoc.verbatim then bodySegment heredoc t
  else
    match ← introducer? t with
    | some r => return r
    | none => bodySegment heredoc t

/-! ### Statements -/

/-- Reads `n` bytes that are a token's own text, and slices them, as is done to look a name up among
the reserved words. -/
def eatText (n : Nat) (t : Tape) : Except Fault Tape := do
  let behind ← eat n t
  let _ ← lift (behind.sliceFrom t.pos)
  return behind

/-- Reads the token that a lexeme describes. The identifier of a heredoc lies between two offsets
at which the reading has been. -/
def ofLexeme (lexeme : Lexeme) (t : Tape) : Except Fault Reading :=
  match lexeme with
  | .bare kind length => do
    let behind ← eatText length t
    return .bare t.pos kind behind
  | .spelled kind length => do
    let behind ← eatText length t
    spelled t.pos t.pos kind .stay behind
  | .quoted true close opener => do
    let behind ← eat opener t
    verbatim t.pos close behind
  | .quoted false close opener => do
    let behind ← eat opener t
    segment t.pos close false behind
  | .heredoc opener => do
    let first ← eat (2 + opener.offset) t
    let last ← eat opener.size first
    let identifier ← lift (Span.between first.pos last.pos)
    let region := Region.heredocLine ⟨identifier, opener.indented, opener.verbatim⟩
    let behind ← eat (2 + opener.length) t
    spelled t.pos t.pos .heredocBegin (.push region) behind
  | .malformed cause length true => do
    let behind ← eat length (t.noteAt t.pos cause)
    spelled t.pos t.pos .illegal .stay behind
  | .malformed cause length false => do
    let behind ← eat length (t.noteAt t.pos cause)
    return .bare t.pos .illegal behind

/-- Reads a token of a statement that begins with `b`. -/
def statement (l : Lookback) (b : Byte) (bytes : List Byte) (t : Tape) : Except Fault Reading := do
  let lineStart ← isLineStart t.pos t
  ofLexeme (Lexeme.read l lineStart b bytes) t

/-- Reads the token that begins with `b` in the construct of a frame. -/
def read (f : Frame) (b : Byte) (bytes : List Byte) (t : Tape) : Except Fault Reading :=
  match f.region with
  | .statements => statement f.lookback b bytes t
  | .quoted close => resumedString close t
  | .interpolation braces =>
    if braces = 0 ∧ b = Byte.ofChar '\x7d' then do
      let behind ← advance t
      return ⟨.bare t.pos .insertEnd, .pop, behind⟩
    else statement f.lookback b bytes t
  | .heredocLine heredoc =>
    if b = Byte.newline then do
      let behind ← advance t
      return ⟨.bare t.pos .newLine, .swap (.heredocBody heredoc), behind⟩
    else statement f.lookback b bytes t
  | .heredocBody heredoc => heredocBody heredoc t

/-! ### Texts have no fault -/

variable {t : Tape} {b : Byte} {bytes : List Byte}

/-- What the end of a text is found by: the reading offset is not less than what was elided. -/
theorem decodedSpan_eq {start : Nat} {r : Transcript} {span : Span}
    (h : Reading.decodedSpan start r = .ok span) : decodedSpan start r = .ok span := by
  rw [Reading.decodedSpan, Tape.behind] at h
  rw [decodedSpan]
  split at h
  · rename_i hskip
    rw [sub_eq hskip, ok_bind]
    exact congrArg lift h
  · cases h

/-- **A text is read without a fault,** and its tape has words for offsets, that of the end of what
closes it included. -/
theorem exists_transcript (h : t.Fits) (style : Style) (lineStart : Bool) :
    ∃ r span, (transcribe style lineStart 0 t = .ok r ∧ decodedSpan t.pos r = .ok span)
      ∧ (t.transcribe style lineStart 0 = .ok r ∧ Reading.decodedSpan t.pos r = .ok span)
      ∧ r.tape.Fits ∧ ∀ length, r.stop = .closed length → length ≤ r.tape.rest.length := by
  have hspan := Reading.decodedSpan_transcriptOf style lineStart t
  have hmove := Tape.onward_transcriptOf style lineStart t
  refine ⟨_, _, ⟨?_, decodedSpan_eq hspan⟩, ⟨Tape.transcribe_eq .., hspan⟩, h.onward hmove, ?_⟩
  · rw [transcribe_eq h (Nat.zero_le _) fun _ _ => rfl, Tape.transcribe_eq, lift_ok]
  · intro length hstop
    exact (Reading.onward_closed hstop ⟨0, 0⟩).le

theorem verbatim_eq (h : t.Fits) (pos : Nat) (close : Byte) :
    verbatim pos close t = lift (Reading.verbatim pos close t) := by
  obtain ⟨r, span, ⟨hr, hspan⟩, ⟨hr', hspan'⟩, hfits, -⟩ :=
    exists_transcript h (.verbatim close) false
  rw [verbatim, hr, ok_bind, hspan, ok_bind, Reading.verbatim]
  simp only [bind, Except.bind, hr', hspan']
  cases r.stop with
  | closed length =>
    simp only [eat_eq hfits]
    rfl
  | interpolation | endOfInput => rfl

theorem segment_eq (h : t.Fits) (pos : Nat) (close : Byte) (resumed : Bool) :
    segment pos close resumed t = lift (Reading.segment pos close resumed t) := by
  obtain ⟨r, span, ⟨hr, hspan⟩, ⟨hr', hspan'⟩, hfits, -⟩ :=
    exists_transcript h (.decoded close) false
  rw [segment, hr, ok_bind, hspan, ok_bind, Reading.segment]
  simp only [bind, Except.bind, hr', hspan']
  cases r.stop with
  | closed length =>
    simp only [eat_eq hfits]
    rfl
  | interpolation | endOfInput => rfl

/-- The end of what closes a body is an offset. -/
theorem bodySegment_eq (h : t.Fits) (heredoc : Heredoc) :
    bodySegment heredoc t = lift (Reading.bodySegment heredoc t) := by
  have hstyle : heredocStyle heredoc t = lift (Reading.heredocStyle heredoc t) := by
    rw [heredocStyle, Reading.heredocStyle, slice]
    cases t.slice heredoc.identifier <;> rfl
  rw [bodySegment, Reading.bodySegment, hstyle]
  cases Reading.heredocStyle heredoc t with
  | error e => rfl
  | ok style =>
    obtain ⟨r, span, ⟨hr, hspan⟩, ⟨hr', hspan'⟩, hfits, hclosed⟩ :=
      exists_transcript h style (t.isLineStart t.pos)
    rw [lift_ok, ok_bind, isLineStart_eq, ok_bind, hr, ok_bind, hspan, ok_bind]
    simp only [bind, Except.bind, hr', hspan']
    cases hstop : r.stop with
    | closed length =>
      have hlength := hclosed length hstop
      rw [Tape.Fits] at hfits
      have hadd : add offsets r.tape.pos length = .ok (r.tape.pos + length) := add_eq (by omega)
      have hjump := advanceTo_eq (t := r.tape) (Nat.le_add_right r.tape.pos length)
      simp only [hadd, hjump, Nat.add_sub_cancel_left]
      rfl
    | interpolation | endOfInput => rfl

/-! ### Readings have no fault -/

theorem introducer?_eq (h : t.Fits) : introducer? t = lift (Reading.introducer? t) := by
  rw [introducer?, rest_eq, ok_bind, Reading.introducer?]
  cases hread : Introducer.read? t.rest with
  | none => rfl
  | some i =>
    have hwithin := Introducer.within_read? hread
    cases i with
    | statements =>
      simp only [eat_eq h]
      rfl
    | variableName kind length =>
      obtain ⟨-, -, hle⟩ := hwithin
      have hpos : (t.advanceBy 1).pos = t.pos + 1 := by
        rw [Tape.pos_advanceBy, Nat.min_eq_left (by omega)]
      simp only
      rw [eat_eq h, ok_bind, eat_eq (h.advanceBy 1), ok_bind, hpos, Tape.advanceBy_advanceBy,
        spelled]
      cases Reading.spelled t.pos (t.pos + 1) kind .stay (t.advanceBy (1 + length)) <;> rfl

theorem resumedString_eq (h : t.Fits) (close : Byte) :
    resumedString close t = lift (Reading.resumedString close t) := by
  rw [resumedString, introducer?_eq h, Reading.resumedString]
  cases Reading.introducer? t with
  | error e => rfl
  | ok introducer =>
    cases introducer with
    | some r => rfl
    | none => exact segment_eq h t.pos close true

theorem heredocBody_eq (h : t.Fits) (heredoc : Heredoc) :
    heredocBody heredoc t = lift (Reading.heredocBody heredoc t) := by
  rw [heredocBody, introducer?_eq h, Reading.heredocBody]
  split
  · exact bodySegment_eq h heredoc
  · cases Reading.introducer? t with
    | error e => rfl
    | ok introducer =>
      cases introducer with
      | some r => rfl
      | none => exact bodySegment_eq h heredoc

theorem eatText_eq (h : t.Fits) (n : Nat) : eatText n t = .ok (t.advanceBy n) := by
  have hpos : t.pos ≤ (t.advanceBy n).pos := by
    rw [Tape.pos_advanceBy]
    exact Nat.le_add_right _ _
  have hsize : (t.advanceBy n).pos ≤ (t.advanceBy n).buffer.length := by
    rw [Tape.length_buffer, Tape.size, ← Tape.pos]
    omega
  have hslice : (t.advanceBy n).sliceFrom t.pos = .ok _ :=
    Tape.slice_eq_ok_iff.mpr (if_pos ⟨hpos, hsize⟩)
  rw [eatText, eat_eq h, ok_bind, hslice]
  rfl

/-- **A lexeme that fits the bytes ahead is read without a fault.** -/
theorem ofLexeme_eq (h : t.Fits) {lexeme : Lexeme} (hlexeme : lexeme.Fits t.rest.length) :
    ofLexeme lexeme t = lift (Reading.ofLexeme lexeme t) := by
  have hnoted : ∀ cause, (t.noteAt t.pos cause).Fits := fun cause => h.noteAt t.pos cause
  cases lexeme with
  | bare kind length =>
    rw [ofLexeme, eatText_eq h, ok_bind]
    rfl
  | spelled kind length =>
    rw [ofLexeme, eatText_eq h, ok_bind]
    rfl
  | quoted isVerbatim close opener =>
    cases isVerbatim with
    | true =>
      rw [ofLexeme, eat_eq h, ok_bind]
      exact verbatim_eq (h.advanceBy opener) t.pos close
    | false =>
      rw [ofLexeme, eat_eq h, ok_bind]
      exact segment_eq (h.advanceBy opener) t.pos close false
  | heredoc opener =>
    obtain ⟨-, hinside, hle⟩ := hlexeme
    have hpos : ∀ {n}, n ≤ t.rest.length → (t.advanceBy n).pos = t.pos + n := by
      intro n hn
      rw [Tape.pos_advanceBy, Nat.min_eq_left hn]
    have hstart : (t.advanceBy (2 + opener.offset)).pos = t.pos + 2 + opener.offset := by
      rw [hpos (by omega), Nat.add_assoc]
    have hstop : (t.advanceBy (2 + opener.offset + opener.size)).pos
        = t.pos + 2 + opener.offset + opener.size := by
      rw [hpos (by omega), Nat.add_assoc, Nat.add_assoc, Nat.add_assoc]
    rw [ofLexeme, eat_eq h, ok_bind, eat_eq (h.advanceBy _), ok_bind, Tape.advanceBy_advanceBy,
      hstart, hstop, eat_eq h, Reading.ofLexeme, Span.between,
      if_pos (Nat.le_add_right _ opener.size)]
    rfl
  | malformed cause length shown =>
    cases shown with
    | true =>
      rw [ofLexeme, eat_eq (hnoted cause), ok_bind]
      rfl
    | false =>
      rw [ofLexeme, eat_eq (hnoted cause), ok_bind]
      rfl

/-- **Reading a token has no fault of its own,** in every construct. -/
theorem read_eq (h : t.Fits) (hrest : t.rest = b :: bytes) (f : Frame) :
    read f b bytes t = lift (Lexer.read f b bytes t) := by
  have hstatement : ∀ l, statement l b bytes t = lift (Reading.statement l b bytes t) := by
    intro l
    rw [statement, isLineStart_eq, ok_bind, Reading.statement]
    refine ofLexeme_eq h ?_
    rw [hrest]
    exact Lexeme.fits_read l bytes _ b
  obtain ⟨region, lookback⟩ := f
  cases region with
  | statements => exact hstatement lookback
  | quoted close => exact resumedString_eq h close
  | interpolation braces =>
    simp only [read, Lexer.read, advance_eq h, ok_bind]
    split
    · rfl
    · exact hstatement lookback
  | heredocLine heredoc =>
    simp only [read, Lexer.read, advance_eq h, ok_bind]
    split
    · rfl
    · exact hstatement lookback
  | heredocBody heredoc => exact heredocBody_eq h heredoc

end ScriptLexer.Word
