import ScriptLexer.Span
import ScriptLexer.Byte

/-!
# Regions

What a byte means depends on the construct it stands in. The region of a construct says how its
bytes are read: as statements, as the text of a string, or as the body of a heredoc.

## Implementation notes

A heredoc is two regions in turn: the rest of the line with its opener, which holds statements,
and from the next line on its body.
-/

namespace ScriptLexer

/-- What an open heredoc is waiting for. -/
structure Heredoc where
  /-- Where the identifier lies in the buffer. -/
  identifier : Span
  /-- Whether the terminator may be indented. -/
  indented : Bool
  /-- Whether the body is verbatim. -/
  verbatim : Bool
  deriving DecidableEq, Repr

/-- How the bytes of a construct are read. -/
inductive Region where
  /-- The statements of the script. -/
  | statements
  /-- The text of a string behind an interpolation, up to its closing byte. -/
  | quoted (close : Byte)
  /-- The statements of an interpolation, in which `braces` braces are open. -/
  | interpolation (braces : Nat)
  /-- The statements behind a heredoc's opener, up to the end of the line. -/
  | heredocLine (heredoc : Heredoc)
  /-- The body of a heredoc. -/
  | heredocBody (heredoc : Heredoc)
  deriving DecidableEq, Repr

/-- Whether the bytes of a region are read as statements. -/
def Region.holdsStatements : Region → Bool
  | statements | interpolation _ | heredocLine _ => true
  | quoted _ | heredocBody _ => false

end ScriptLexer
