import ScriptLexer.Lexeme.Line

/-!
# Layout

Layout is what may stand between two tokens of a statement: blanks, a line end joined by a
backslash, comments to the end of the line, and block comments. `Gap.read?` reads one piece of it.

A block comment is a line that begins with `=begin`, the lines behind it, and the first later line
that begins with `=end`; both words must end as words. It is only recognised at the start of a
line, and one that is never closed is not layout.

## Implementation notes

Blanks and joined lines separate two tokens, comments do not: a token that follows a comment
directly still abuts the token in front of the comment.
-/

namespace ScriptLexer

/-- A piece of layout. -/
structure Gap where
  /-- The number of bytes behind the first. -/
  more : Nat
  /-- Whether the piece separates the tokens on both its sides. -/
  separates : Bool
  deriving DecidableEq, Repr

namespace Gap

/-- The number of bytes of a piece, which has at least one. -/
def length (g : Gap) : Nat :=
  g.more + 1

end Gap

namespace BlockComment

/-- The word that opens a block comment. -/
def opener : List Byte :=
  Byte.ofString "=begin"

/-- The word that closes a block comment. -/
def closer : List Byte :=
  Byte.ofString "=end"

/-- Whether a block comment opens here. -/
def opensAt (lineStart : Bool) (rest : List Byte) : Bool :=
  lineStart && Line.hasWord opener rest

/-- The number of bytes up to the end of the first line behind a line feed that has the closing
word. -/
def length? : List Byte → Option Nat
  | [] => none
  | b :: rest =>
    if b == Byte.newline && Line.hasWord closer rest then some (1 + Line.lengthWithEnd rest)
    else (length? rest).map (1 + ·)

end BlockComment

namespace Gap

/-- Reads a run of blanks, the first of which has been seen. -/
def blanks (rest : List Byte) : Gap :=
  ⟨(rest.takeWhile Byte.isBlank).length, true⟩

/-- Reads a comment to the end of its line, of which the first byte has been seen. -/
def comment (rest : List Byte) : Gap :=
  ⟨Line.length rest, false⟩

/-- Reads the line end that a backslash joins. -/
def joinedLine? : List Byte → Option Gap
  | 0x0A :: _ => some ⟨1, true⟩
  | 0x0D :: 0x0A :: _ => some ⟨2, true⟩
  | _ => none

/-- Reads a block comment, of which the first byte has been seen. -/
def blockComment? (rest : List Byte) : Option Gap :=
  (BlockComment.length? rest).map fun n => ⟨n, false⟩

/-- Reads the piece of layout that begins the bytes; `lineStart` tells whether a line begins
there. -/
def read? (lineStart : Bool) : List Byte → Option Gap
  | [] => none
  | b :: rest =>
    if Byte.isBlank b then some (blanks rest)
    else if b == Byte.ofChar '#' then some (comment rest)
    else if b == Byte.ofChar '\\' then joinedLine? rest
    else if BlockComment.opensAt lineStart (b :: rest) then blockComment? rest
    else none

theorem read?_nil (lineStart : Bool) : read? lineStart [] = none :=
  rfl

end Gap

end ScriptLexer
