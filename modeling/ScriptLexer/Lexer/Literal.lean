import ScriptLexer.Lexer.Basic
import ScriptLexer.Text.Transcript

/-!
# Reading literals with text

The text of strings and heredoc bodies is decoded in place and returned in segments. A segment
ends where the literal closes, before an introducer, or at the end of the script; in the last case
the token is illegal and the literal stays open or was never entered.

An introducer is a token of its own. Statements in braces open a construct; a variable is returned
at the offset of its hash sign, with a literal that leaves the hash sign out.
-/

namespace ScriptLexer.Reading

/-- The span of the text that was decoded from `start` on. -/
def decodedSpan (start : Nat) (r : Transcript) : Except Misuse Span := do
  let stop ← r.tape.behind r.skip
  Span.between start stop

/-- Reads the introducer that stands here, if one does. -/
def introducer? (t : Tape) : Except Misuse (Option Reading) :=
  match Introducer.read? t.rest with
  | none => .ok none
  | some .statements =>
    .ok (some ⟨.bare t.pos .insertBegin, .push (.interpolation 0), t.advanceBy 2⟩)
  | some (.variableName kind length) =>
    (spelled t.pos (t.pos + 1) kind .stay (t.advanceBy (1 + length))).map some

/-- Reads verbatim quoted text, whose opener has been read. The token is that of `pos`. -/
def verbatim (pos : Nat) (close : Byte) (t : Tape) : Except Misuse Reading := do
  let r ← t.transcribe (.verbatim close) false 0
  let span ← decodedSpan t.pos r
  match r.stop with
  | .closed length => return .withLiteral pos .string span .stay (r.tape.advanceBy length)
  | _ => return .withLiteral pos .illegal span .stay (r.tape.noteAt pos .unterminatedString)

/-- Reads a segment of decoded quoted text, whose opener or last introducer has been read. The
string is a construct of its own only while it is interrupted: the first segment opens it if an
introducer follows, and the last closes it if an introducer came before. -/
def segment (pos : Nat) (close : Byte) (resumed : Bool) (t : Tape) : Except Misuse Reading := do
  let r ← t.transcribe (.decoded close) false 0
  let span ← decodedSpan t.pos r
  match r.stop with
  | .interpolation =>
    let shift : Shift := if resumed then .stay else .push (.quoted close)
    return .withLiteral pos .stringPart span shift r.tape
  | .closed length =>
    let shift : Shift := if resumed then .pop else .stay
    return .withLiteral pos .string span shift (r.tape.advanceBy length)
  | .endOfInput =>
    return .withLiteral pos .illegal span .stay (r.tape.noteAt pos .unterminatedString)

/-- Reads on in a string behind an interpolation. -/
def resumedString (close : Byte) (t : Tape) : Except Misuse Reading := do
  match ← introducer? t with
  | some r => return r
  | none => segment t.pos close true t

/-- The style of a heredoc's body. -/
def heredocStyle (heredoc : Heredoc) (t : Tape) : Except Misuse Style := do
  let identifier ← t.slice heredoc.identifier
  let close : TerminatorLine := ⟨identifier, heredoc.indented⟩
  return if heredoc.verbatim then .verbatimLines close else .decodedLines close

/-- Reads a segment of a heredoc's body. What closes it is read up to the end of the line, but not
the line end itself. -/
def bodySegment (heredoc : Heredoc) (t : Tape) : Except Misuse Reading := do
  let style ← heredocStyle heredoc t
  let r ← t.transcribe style (t.isLineStart t.pos) 0
  let span ← decodedSpan t.pos r
  match r.stop with
  | .interpolation => return .withLiteral t.pos .heredocPart span .stay r.tape
  | .closed length => return .withLiteral t.pos .heredocEnd span .pop (r.tape.advanceBy length)
  | .endOfInput =>
    return .withLiteral t.pos .illegal span .stay (r.tape.noteAt t.pos .unterminatedHeredoc)

/-- Reads on in a heredoc's body. -/
def heredocBody (heredoc : Heredoc) (t : Tape) : Except Misuse Reading := do
  if heredoc.verbatim then bodySegment heredoc t
  else
    match ← introducer? t with
    | some r => return r
    | none => bodySegment heredoc t

end ScriptLexer.Reading
