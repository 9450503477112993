import ScriptLexer.Byte

/-!
# Diagnostics

A malformation is what is wrong with a piece of a script; a diagnostic says where it is. One run
of the lexer keeps its first diagnostic only, since what follows a malformation is often its
consequence.
-/

namespace ScriptLexer

/-- What is wrong with a piece of a script. -/
inductive Malformation where
  /-- A block comment without its closing line. -/
  | unterminatedComment
  /-- The script ends inside a quoted literal. -/
  | unterminatedString
  /-- The script ends before the terminator line of a heredoc. -/
  | unterminatedHeredoc
  /-- The script ends inside `depth` nested constructs, the innermost of which holds statements. -/
  | unclosedContext (depth : Nat)
  /-- A control escape lacks its hyphen. -/
  | invalidEscape
  /-- A hexadecimal escape lacks its digits. -/
  | invalidHexEscape
  /-- A backslash between tokens does not end its line. -/
  | strayBackslash
  /-- A quoted heredoc identifier is empty or lacks its closing quote. -/
  | invalidHeredocIdentifier
  /-- A variable's sigil is not followed by a name. -/
  | invalidVariableName (sigil : String)
  /-- A byte that begins no token. -/
  | unexpectedByte (byte : Byte)
  deriving DecidableEq, Repr

namespace Malformation

/-- The description of a malformation, without its place. -/
def message : Malformation → String
  | unterminatedComment => "multi-line comment must be closed"
  | unterminatedString => "unterminated string meets end of file"
  | unterminatedHeredoc => "can't find heredoc terminator anywhere before end of file"
  | unclosedContext depth =>
    "unexpected end of input inside " ++ depth.repr ++ " nested lexical contexts"
  | invalidEscape => "invalid escape"
  | invalidHexEscape => "invalid hex escape"
  | strayBackslash => "escape character must be at end of line"
  | invalidHeredocIdentifier => "invalid heredoc identifier"
  | invalidVariableName sigil =>
    "`" ++ sigil ++ "` without identifiers is not allowed as a variable name"
  | unexpectedByte byte => "invalid character 0x" ++ Byte.toHex byte

end Malformation

/-- A malformation and the offset at which it was detected. -/
structure Diagnostic where
  pos : Nat
  cause : Malformation
  deriving DecidableEq, Repr

/-- The description of a diagnostic: the malformation's, then the offset. -/
def Diagnostic.message (d : Diagnostic) : String :=
  d.cause.message ++ " at pos=" ++ d.pos.repr

end ScriptLexer
