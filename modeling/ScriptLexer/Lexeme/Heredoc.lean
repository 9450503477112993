import ScriptLexer.Lexeme.Line

/-!
# Openers and terminators of heredocs

A heredoc is opened by `<<` and an identifier, and its body ends at the first line that holds that
identifier alone. A hyphen or a tilde in front of the identifier lets the terminator be indented.
An identifier in quotes may have any bytes but its quote and a line feed; single quotes ask for
verbatim text.
-/

namespace ScriptLexer

/-- What an accepted opener says about the heredoc; offsets are counted behind the `<<`. -/
structure HeredocOpener where
  /-- Whether the terminator may be indented. -/
  indented : Bool
  /-- Whether the body is verbatim. -/
  verbatim : Bool
  /-- Where the identifier begins. -/
  offset : Nat
  /-- The number of bytes of the identifier. -/
  size : Nat
  /-- The number of bytes of the opener. -/
  length : Nat
  deriving DecidableEq, Repr

/-- What follows a `<<`. -/
inductive HeredocStart where
  /-- Not an opener. -/
  | absent
  /-- An opener whose quoted identifier is empty or not closed, of a number of bytes. -/
  | broken (length : Nat)
  | accepted (opener : HeredocOpener)
  deriving DecidableEq, Repr

namespace HeredocStart

/-- Reads an identifier between quotes, of which the first has been seen; `offset` bytes stand in
front of that. -/
def quoted (indented : Bool) (quote : Byte) (offset : Nat) (rest : List Byte) : HeredocStart :=
  let size := (rest.takeWhile fun b => b != quote && b != Byte.newline).length
  if size ≠ 0 ∧ (rest.drop size).head? = some quote then
    .accepted ⟨indented, quote == Byte.ofChar '\'', offset + 1, size, offset + size + 2⟩
  else .broken (offset + size + 1)

/-- Reads an identifier, in quotes or not, behind `offset` bytes. -/
def identifier (indented : Bool) (offset : Nat) : List Byte → HeredocStart
  | [] => .absent
  | b :: rest =>
    if b == Byte.ofChar '\'' || b == Byte.ofChar '"' then quoted indented b offset rest
    else if Byte.isIdentContinue b then
      let size := ((b :: rest).takeWhile Byte.isIdentContinue).length
      .accepted ⟨indented, false, offset, size, offset + size⟩
    else .absent

/-- Reads what follows a `<<`. -/
def read : List Byte → HeredocStart
  | 0x2D :: rest => identifier true 1 rest  -- -
  | 0x7E :: rest => identifier true 1 rest  -- ~
  | rest => identifier false 0 rest

end HeredocStart

/-- The line that ends the body of a heredoc. -/
structure TerminatorLine where
  /-- The bytes of the identifier. -/
  identifier : List Byte
  /-- Whether blanks may stand in front of it. -/
  indented : Bool
  deriving DecidableEq, Repr

namespace TerminatorLine

/-- The number of bytes up to the end of the identifier, if the bytes begin with the line. The
blanks in front of the identifier are those of the whole run, so an identifier that begins with a
blank never ends an indented heredoc. -/
def read? (line : TerminatorLine) (rest : List Byte) : Option Nat :=
  let indent := if line.indented then (rest.takeWhile Byte.isBlank).length else 0
  if (Line.behind? line.identifier (rest.drop indent)).any Line.endsHere then
    some (indent + line.identifier.length)
  else none

end TerminatorLine

end ScriptLexer
