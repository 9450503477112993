import ScriptLexer.Lexeme
import ScriptLexer.Lexer.Literal

/-!
# Reading statements

The statements of a script, of an interpolation, and of the line behind a heredoc's opener are
read alike: layout is skipped, and the bytes behind it begin a token. The three regions differ in
the one byte that ends an interpolation or such a line.

The end marker is honoured wherever statements are read. It makes the script end in front of it,
so that it is not a token, and whatever is still open there stays open.
-/

namespace ScriptLexer

namespace Tape

/-- Skips all layout ahead and answers with the lookback behind it. -/
def skipLayout (l : Lookback) (t : Tape) : Tape × Lookback :=
  match _h : Gap.read? (t.isLineStart t.pos) t.rest with
  | none => (t, l)
  | some g => skipLayout (l.afterGap g.separates) (t.advanceBy g.length)
termination_by t.rest.length
decreasing_by
  cases hr : t.rest with
  | nil => simp_all [Gap.read?_nil]
  | cons b rest =>
    rw [rest_advanceBy, hr, List.length_drop]
    simp only [List.length_cons, Gap.length]
    omega

/-- Ends the script at the end marker, if the marker stands here on a line of its own. -/
def honourEndMarker (t : Tape) : Tape :=
  if t.isLineStart t.pos && Line.isEndMarker t.rest then t.terminateAt t.pos else t

end Tape

namespace Reading

/-- Reads the token that a lexeme describes; its bytes are the first ones ahead. -/
def ofLexeme (lexeme : Lexeme) (t : Tape) : Except Misuse Reading :=
  match lexeme with
  | .bare kind length => .ok (bare t.pos kind (t.advanceBy length))
  | .spelled kind length => spelled t.pos t.pos kind .stay (t.advanceBy length)
  | .quoted true close opener => verbatim t.pos close (t.advanceBy opener)
  | .quoted false close opener => segment t.pos close false (t.advanceBy opener)
  | .heredoc opener => do
    let start := t.pos + 2 + opener.offset
    let identifier ← Span.between start (start + opener.size)
    let region := Region.heredocLine ⟨identifier, opener.indented, opener.verbatim⟩
    spelled t.pos t.pos .heredocBegin (.push region) (t.advanceBy (2 + opener.length))
  | .malformed cause length true =>
    spelled t.pos t.pos .illegal .stay ((t.noteAt t.pos cause).advanceBy length)
  | .malformed cause length false =>
    .ok (bare t.pos .illegal ((t.noteAt t.pos cause).advanceBy length))

/-- Reads a token of a statement that begins with `b`. -/
def statement (l : Lookback) (b : Byte) (rest : List Byte) (t : Tape) : Except Misuse Reading :=
  ofLexeme (Lexeme.read l (t.isLineStart t.pos) b rest) t

end Reading

end ScriptLexer
