import ScriptLexer.Lexeme.Name

/-!
# Variables

A variable is a sigil and a name. In the text of an interpolating literal a variable may stand
directly behind a hash sign; statements in braces may stand there as well. Both are introducers,
and a hash sign that introduces nothing is text.
-/

namespace ScriptLexer

/-- What a variable's first byte begins. -/
inductive Variable where
  /-- A variable of a kind, with a number of bytes. -/
  | named (kind : Kind) (length : Nat)
  /-- A sigil, of a number of bytes, without a name. -/
  | nameless (sigil : String) (length : Nat)
  deriving DecidableEq, Repr

namespace Variable

/-- Reads the name behind a sigil of `length` bytes. -/
def ofSigil (sigil : String) (length : Nat) (kind : Kind) (rest : List Byte) : Variable :=
  if Name.startsHere rest then .named kind (length + Name.run rest) else .nameless sigil length

/-- Reads what a sigil begins; a sigil is one dollar sign or one or two at signs. -/
def read? : List Byte → Option Variable
  | 0x24 :: rest => some (ofSigil "$" 1 .globalVariable rest)
  | 0x40 :: 0x40 :: rest => some (ofSigil "@@" 2 .classVariable rest)
  | 0x40 :: rest => some (ofSigil "@" 1 .instanceVariable rest)
  | _ => none

end Variable

/-- What interrupts the text of an interpolating literal. -/
inductive Introducer where
  /-- A hash sign and an opening brace: statements follow. -/
  | statements
  /-- A hash sign and a variable, of a kind and a number of bytes without the hash sign. -/
  | variableName (kind : Kind) (length : Nat)
  deriving DecidableEq, Repr

namespace Introducer

/-- Reads the introducer that begins the bytes. -/
def read? : List Byte → Option Introducer
  | 0x23 :: 0x7B :: _ => some .statements
  | 0x23 :: rest =>
    match Variable.read? rest with
    | some (.named kind length) => some (.variableName kind length)
    | _ => none
  | _ => none

end Introducer

end ScriptLexer
