import ScriptLexer.Token.Punctuator
import ScriptLexer.Token.Keyword

/-!
# Kinds of tokens

A kind says what a token is. A kind whose text never varies reports it as `lexeme?`; a token of
any other kind points at its text in the buffer, as its literal.

Kinds are numbered below 256, in ranges: line structure from 0, numbers from 8, strings from 16,
names from 24, brackets from 32, operators from 48, assignments from 80, reserved words from 128.
-/

namespace ScriptLexer

/-- What a token is. -/
inductive Kind where
  /-- Input that continues without a token. No lexer returns it; it has a number and a name. -/
  | continuation
  /-- Malformed input. -/
  | illegal
  /-- The end of the script, or of the part before its end marker. -/
  | endOfInput
  /-- A line feed or a semicolon. -/
  | newLine
  | decimalInteger
  | binaryInteger
  | octalInteger
  | hexadecimalInteger
  | float
  /-- A whole string, or its last segment. -/
  | string
  /-- A segment of a string before an interpolation. -/
  | stringPart
  | heredocBegin
  /-- A segment of a heredoc body before an interpolation. -/
  | heredocPart
  /-- A whole heredoc body, or its last segment. -/
  | heredocEnd
  /-- The opening of an interpolation that holds statements. -/
  | insertBegin
  /-- The brace that closes such an interpolation. -/
  | insertEnd
  | localVariable
  /-- A local name with a suffix: `?`, `!`, or the `=` of a setter's definition. -/
  | methodName
  | globalVariable
  | instanceVariable
  | classVariable
  | constant
  | punctuator (p : Punctuator)
  | keyword (k : Keyword)
  deriving DecidableEq, Repr

namespace Kind

/-- The number of a kind. -/
def code : Kind → Nat
  | continuation => 0
  | illegal => 1
  | endOfInput => 2
  | newLine => 3
  | decimalInteger => 8
  | binaryInteger => 9
  | octalInteger => 10
  | hexadecimalInteger => 11
  | float => 12
  | string => 16
  | stringPart => 17
  | heredocBegin => 18
  | heredocPart => 19
  | heredocEnd => 20
  | insertBegin => 21
  | insertEnd => 22
  | localVariable => 24
  | methodName => 25
  | globalVariable => 26
  | instanceVariable => 27
  | classVariable => 28
  | constant => 29
  | punctuator p => p.code
  | keyword k => k.code

/-- The text of a kind whose text never varies. -/
def lexeme? : Kind → Option String
  | insertBegin => some "#\x7b"
  | insertEnd => some "\x7d"
  | punctuator p => some p.text
  | keyword k => some k.text
  | _ => none

/-- A text between back quotes. -/
def quoted (text : String) : String :=
  "`" ++ text ++ "`"

/-- The name of a kind, for people to read. A kind with a text of its own is named by it, except
that the brace that closes an interpolation is told apart from other braces. -/
def name : Kind → String
  | continuation => "continuation"
  | illegal => "illegal token"
  | endOfInput => "end of input"
  | newLine => "newline"
  | decimalInteger => "decimal integer"
  | binaryInteger => "binary integer"
  | octalInteger => "octal integer"
  | hexadecimalInteger => "hexadecimal integer"
  | float => "float literal"
  | string => "string literal"
  | stringPart => "string part"
  | heredocBegin => "heredoc opener"
  | heredocPart => "heredoc part"
  | heredocEnd => "heredoc body"
  | insertBegin => quoted "#\x7b"
  | insertEnd => "interpolation end"
  | localVariable => "local variable"
  | methodName => "method name"
  | globalVariable => "global variable"
  | instanceVariable => "instance variable"
  | classVariable => "class variable"
  | constant => "constant"
  | punctuator p => quoted p.text
  | keyword k => quoted k.text

/-- Whether the kind is a reserved word. -/
def isKeyword : Kind → Bool
  | keyword _ => true
  | _ => false

/-- Whether the kind is `=` or a compound assignment. -/
def isAssignment : Kind → Bool
  | punctuator p => p.isAssignment
  | _ => false

/-- Whether tokens of the kind carry a literal. An illegal token may carry one. -/
def hasLiteral : Kind → Bool
  | illegal | decimalInteger | binaryInteger | octalInteger | hexadecimalInteger | float => true
  | string | stringPart | heredocBegin | heredocPart | heredocEnd => true
  | localVariable | methodName | globalVariable | instanceVariable | classVariable => true
  | constant => true
  | _ => false

/-- Whether a token of the kind can end an operand, so that a percent sign behind it reads as the
binary operator. -/
def endsValue : Kind → Bool
  | decimalInteger | binaryInteger | octalInteger | hexadecimalInteger | float => true
  | string | heredocBegin | heredocEnd => true
  | localVariable | methodName | globalVariable | instanceVariable | classVariable => true
  | constant => true
  | punctuator .rightParen | punctuator .rightBracket | punctuator .rightBrace => true
  | keyword .lineNumber | keyword .encodingName | keyword .fileName | keyword .endWord => true
  | keyword .falseWord | keyword .nilWord | keyword .selfWord | keyword .trueWord => true
  | _ => false

end Kind

end ScriptLexer
