import ScriptLexer.Lexeme.Heredoc
import ScriptLexer.Lexeme.Variable
import ScriptLexer.Text.Escape

/-!
# Styles of literal text

A style says how the text of a literal is read: where it stops, and what its pieces are. There are
four. Text between two quotes may be verbatim, in which case a backslash only shields itself and
the closing byte, or decoded. The body of a heredoc may be verbatim, in which case every byte
stands for itself, or decoded.

Decoded text stops at an introducer, and text of any style where it closes. A byte that closes
quoted text is looked for first; in a heredoc, a line that closes it is.

## Implementation notes

A heredoc closes at the start of a line only, and lines are those of the text, not of the script:
a line feed that an escape elides starts no line. So whether a line starts is carried along with
the text, and a piece starts one when it is a plain line feed.
-/

namespace ScriptLexer

/-- Why the text of a literal stops. -/
inductive Stop where
  /-- It is closed by a number of bytes, which are still unread. -/
  | closed (length : Nat)
  /-- It is interrupted by an introducer, which is still unread. -/
  | interpolation
  | endOfInput
  deriving DecidableEq, Repr

/-- How the text of a literal is read. -/
inductive Style where
  /-- Verbatim text up to a byte. -/
  | verbatim (close : Byte)
  /-- Decoded text up to a byte. -/
  | decoded (close : Byte)
  /-- Verbatim lines up to a line. -/
  | verbatimLines (close : TerminatorLine)
  /-- Decoded lines up to a line. -/
  | decodedLines (close : TerminatorLine)
  deriving DecidableEq, Repr

namespace Style

/-- The number of bytes that close the text here. -/
def close? (lineStart : Bool) (rest : List Byte) : Style → Option Nat
  | verbatim close | decoded close => if rest.head? = some close then some 1 else none
  | verbatimLines close | decodedLines close => if lineStart then close.read? rest else none

/-- Whether escapes and introducers have their meaning. -/
def decodes : Style → Bool
  | verbatim _ | verbatimLines _ => false
  | decoded _ | decodedLines _ => true

/-- Why the text stops before the bytes ahead, if it does. -/
def stop? (lineStart : Bool) (rest : List Byte) (style : Style) : Option Stop :=
  match style.close? lineStart rest with
  | some length => some (.closed length)
  | none =>
    if style.decodes && (Introducer.read? rest).isSome then some .interpolation else none

/-- Reads a byte of verbatim quoted text; a backslash before a backslash or before the closing
byte is left out. -/
def shielded (close : Byte) (b : Byte) (rest : List Byte) : Piece :=
  match rest with
  | [] => .plain b
  | c :: _ =>
    if b == Byte.ofChar '\\' && (c == Byte.ofChar '\\' || c == close) then .coded 1 c
    else .plain b

/-- Reads the piece that begins with `b`. -/
def piece (b : Byte) (rest : List Byte) : Style → Piece
  | verbatim close => shielded close b rest
  | decoded _ | decodedLines _ => if b == Byte.ofChar '\\' then Escape.read rest else .plain b
  | verbatimLines _ => .plain b

end Style

end ScriptLexer
