import ScriptLexer.Byte

/-!
# Punctuators

The tokens that are written with punctuation alone: brackets, delimiters, operators and
assignments. Each has one text, and `read?` finds the longest one that begins the bytes ahead.

## Implementation notes

Three bytes decide any punctuator, and most are decided by two. `read?` branches on the first byte
and leaves the rest to a function of the bytes behind it. The functions carry the patterns that
the operators share: `x` and `x=`, or `x`, `x=`, `xx` and `xx=`.
-/

namespace ScriptLexer

/-- A token written with punctuation alone. -/
inductive Punctuator where
  -- Brackets and delimiters
  | leftParen | rightParen | leftBracket | rightBracket | leftBrace | rightBrace | doubleColon
  | comma | dot | twoDots | threeDots | question | colon | arrow
  -- Operators
  | bang | notEqual | notMatch | andAnd | orOr | caret | ampersand | bar | compare | equal
  | caseEqual | matchOp | greater | greaterEqual | less | lessEqual | shiftLeft | shiftRight
  | plus | minus | star | slash | percent | power | tilde | unaryPlus | unaryMinus | elementRef
  | elementSet
  -- Assignments
  | assign | andAndAssign | orOrAssign | caretAssign | ampersandAssign | barAssign
  | shiftLeftAssign | shiftRightAssign | plusAssign | minusAssign | starAssign | slashAssign
  | percentAssign | powerAssign
  deriving DecidableEq, Repr

namespace Punctuator

/-- The text of a punctuator. -/
def text : Punctuator → String
  | leftParen => "("
  | rightParen => ")"
  | leftBracket => "["
  | rightBracket => "]"
  | leftBrace => "\x7b"
  | rightBrace => "\x7d"
  | doubleColon => "::"
  | comma => ","
  | dot => "."
  | twoDots => ".."
  | threeDots => "..."
  | question => "?"
  | colon => ":"
  | arrow => "=>"
  | bang => "!"
  | notEqual => "!="
  | notMatch => "!~"
  | andAnd => "&&"
  | orOr => "||"
  | caret => "^"
  | ampersand => "&"
  | bar => "|"
  | compare => "<=>"
  | equal => "=="
  | caseEqual => "==="
  | matchOp => "=~"
  | greater => ">"
  | greaterEqual => ">="
  | less => "<"
  | lessEqual => "<="
  | shiftLeft => "<<"
  | shiftRight => ">>"
  | plus => "+"
  | minus => "-"
  | star => "*"
  | slash => "/"
  | percent => "%"
  | power => "**"
  | tilde => "~"
  | unaryPlus => "+@"
  | unaryMinus => "-@"
  | elementRef => "[]"
  | elementSet => "[]="
  | assign => "="
  | andAndAssign => "&&="
  | orOrAssign => "||="
  | caretAssign => "^="
  | ampersandAssign => "&="
  | barAssign => "|="
  | shiftLeftAssign => "<<="
  | shiftRightAssign => ">>="
  | plusAssign => "+="
  | minusAssign => "-="
  | starAssign => "*="
  | slashAssign => "/="
  | percentAssign => "%="
  | powerAssign => "**="

/-- The bytes of a punctuator's text. -/
def bytes (p : Punctuator) : List Byte :=
  Byte.ofString p.text

/-- The number of a punctuator in the numbering of token kinds. -/
def code : Punctuator → Nat
  | leftParen => 32
  | rightParen => 33
  | leftBracket => 34
  | rightBracket => 35
  | leftBrace => 36
  | rightBrace => 37
  | doubleColon => 38
  | comma => 39
  | dot => 40
  | twoDots => 41
  | threeDots => 42
  | question => 43
  | colon => 44
  | arrow => 45
  | bang => 48
  | notEqual => 49
  | notMatch => 50
  | andAnd => 51
  | orOr => 52
  | caret => 53
  | ampersand => 54
  | bar => 55
  | compare => 56
  | equal => 57
  | caseEqual => 58
  | matchOp => 59
  | greater => 60
  | greaterEqual => 61
  | less => 62
  | lessEqual => 63
  | shiftLeft => 64
  | shiftRight => 65
  | plus => 66
  | minus => 67
  | star => 68
  | slash => 69
  | percent => 70
  | power => 71
  | tilde => 72
  | unaryPlus => 73
  | unaryMinus => 74
  | elementRef => 75
  | elementSet => 76
  | assign => 80
  | andAndAssign => 81
  | orOrAssign => 82
  | caretAssign => 83
  | ampersandAssign => 84
  | barAssign => 85
  | shiftLeftAssign => 86
  | shiftRightAssign => 87
  | plusAssign => 88
  | minusAssign => 89
  | starAssign => 90
  | slashAssign => 91
  | percentAssign => 92
  | powerAssign => 93

/-- Whether a punctuator assigns: `=` and the operators that end in it and assign. -/
def isAssignment : Punctuator → Bool
  | assign | andAndAssign | orOrAssign | caretAssign | ampersandAssign | barAssign
  | shiftLeftAssign | shiftRightAssign | plusAssign | minusAssign | starAssign | slashAssign
  | percentAssign | powerAssign => true
  | _ => false

/-! ### Reading the longest punctuator -/

/-- Reads on after `x`: the punctuator `x=`, or else `x`. -/
def withAssign (plain assigning : Punctuator) : List Byte → Punctuator
  | 0x3D :: _ => assigning  -- =
  | _ => plain

/-- Reads on after `x`: one of `xx=`, `xx`, `x=` and `x`. -/
def doubled (x : Byte) (single singleAssign double doubleAssign : Punctuator) :
    List Byte → Punctuator
  | [] => single
  | b :: rest =>
    if b == x then withAssign double doubleAssign rest
    else withAssign single singleAssign (b :: rest)

/-- Reads on after a sign: a unary operator's `@`, the assigning `=`, or the plain operator. -/
def signed (plain unary assigning : Punctuator) : List Byte → Punctuator
  | 0x40 :: _ => unary  -- @
  | rest => withAssign plain assigning rest

/-- Reads on after `!`. -/
def afterBang : List Byte → Punctuator
  | 0x3D :: _ => notEqual  -- =
  | 0x7E :: _ => notMatch  -- ~
  | _ => bang

/-- Reads on after `.`. -/
def afterDot : List Byte → Punctuator
  | 0x2E :: 0x2E :: _ => threeDots
  | 0x2E :: _ => twoDots
  | _ => dot

/-- Reads on after `:`. -/
def afterColon : List Byte → Punctuator
  | 0x3A :: _ => doubleColon
  | _ => colon

/-- Reads on after `<`. -/
def afterLess : List Byte → Punctuator
  | 0x3C :: rest => withAssign shiftLeft shiftLeftAssign rest  -- <
  | 0x3D :: 0x3E :: _ => compare  -- =>
  | 0x3D :: _ => lessEqual  -- =
  | _ => less

/-- Reads on after `=`. -/
def afterEqual : List Byte → Punctuator
  | 0x3D :: 0x3D :: _ => caseEqual  -- ==
  | 0x3D :: _ => equal  -- =
  | 0x3E :: _ => arrow  -- >
  | 0x7E :: _ => matchOp  -- ~
  | _ => assign

/-- Reads on after `>`. -/
def afterGreater : List Byte → Punctuator
  | 0x3E :: rest => withAssign shiftRight shiftRightAssign rest  -- >
  | rest => withAssign greater greaterEqual rest

/-- Reads on after `[`. -/
def afterLeftBracket : List Byte → Punctuator
  | 0x5D :: rest => withAssign elementRef elementSet rest  -- ]
  | _ => leftBracket

/-- The longest punctuator that begins the bytes. -/
def read? : List Byte → Option Punctuator
  | [] => none
  | b :: rest =>
    match b with
    | 0x21 => some (afterBang rest)  -- !
    | 0x25 => some (withAssign percent percentAssign rest)  -- %
    | 0x26 => some (doubled b ampersand ampersandAssign andAnd andAndAssign rest)  -- &
    | 0x28 => some leftParen  -- (
    | 0x29 => some rightParen  -- )
    | 0x2A => some (doubled b star starAssign power powerAssign rest)  -- *
    | 0x2B => some (signed plus unaryPlus plusAssign rest)  -- +
    | 0x2C => some comma  -- ,
    | 0x2D => some (signed minus unaryMinus minusAssign rest)  -- -
    | 0x2E => some (afterDot rest)  -- .
    | 0x2F => some (withAssign slash slashAssign rest)  -- /
    | 0x3A => some (afterColon rest)  -- :
    | 0x3C => some (afterLess rest)  -- <
    | 0x3D => some (afterEqual rest)  -- =
    | 0x3E => some (afterGreater rest)  -- >
    | 0x3F => some question  -- ?
    | 0x5B => some (afterLeftBracket rest)  -- [
    | 0x5D => some rightBracket  -- ]
    | 0x5E => some (withAssign caret caretAssign rest)  -- ^
    | 0x7B => some leftBrace  -- an opening brace
    | 0x7C => some (doubled b bar barAssign orOr orOrAssign rest)  -- |
    | 0x7D => some rightBrace  -- a closing brace
    | 0x7E => some tilde  -- ~
    | _ => none

end Punctuator

end ScriptLexer
