/-!
# Bytes and their lexical classes

A script is a sequence of bytes. Every lexical rule is about ASCII bytes, so a script need not be
valid UTF-8, and a byte of `0x80` or above belongs to no class at all.

## Implementation notes

The classes are intervals, read by comparison. The zero byte is in none of them: a reader that
sees zero past the end of the script therefore stops there without asking where the end is.

A line feed is not blank. It ends a statement and is a token of its own.
-/

namespace ScriptLexer

/-- A byte of a script. -/
abbrev Byte := UInt8

namespace Byte

/-- The code of an ASCII character. -/
def ofChar (c : Char) : Byte :=
  c.toNat.toUInt8

/-- The codes of an ASCII text, in order. -/
def ofString (s : String) : List Byte :=
  s.toList.map ofChar

/-- The line feed, the one byte that ends a line. -/
def newline : Byte := 0x0A

/-! ### Letters and digits -/

/-- A lowercase letter, `a` to `z`. -/
def isLowercase (b : Byte) : Bool :=
  0x61 ≤ b && b ≤ 0x7A

/-- An uppercase letter, `A` to `Z`. -/
def isUppercase (b : Byte) : Bool :=
  0x41 ≤ b && b ≤ 0x5A

/-- A letter of either case. -/
def isLetter (b : Byte) : Bool :=
  isLowercase b || isUppercase b

/-- A decimal digit, `0` to `9`. -/
def isDecimal (b : Byte) : Bool :=
  0x30 ≤ b && b ≤ 0x39

/-- A decimal digit other than `0`. -/
def isNonzeroDecimal (b : Byte) : Bool :=
  0x31 ≤ b && b ≤ 0x39

/-- A binary digit. -/
def isBinary (b : Byte) : Bool :=
  0x30 ≤ b && b ≤ 0x31

/-- An octal digit, `0` to `7`. -/
def isOctal (b : Byte) : Bool :=
  0x30 ≤ b && b ≤ 0x37

/-- A hexadecimal digit: a decimal digit or a letter from `a` to `f`, of either case. -/
def isHexadecimal (b : Byte) : Bool :=
  isDecimal b || (0x61 ≤ b && b ≤ 0x66) || (0x41 ≤ b && b ≤ 0x46)

/-- The value of a hexadecimal digit. -/
def hexValue? (b : Byte) : Option Byte :=
  if isDecimal b then some (b - 0x30)
  else if 0x61 ≤ b && b ≤ 0x66 then some (b - 0x57)
  else if 0x41 ≤ b && b ≤ 0x46 then some (b - 0x37)
  else none

/-- The lowercase hexadecimal digit of a value below sixteen. -/
def hexDigit (n : Nat) : Char :=
  if n < 10 then Char.ofNat (0x30 + n) else Char.ofNat (0x57 + n)

/-- A byte as two hexadecimal digits. -/
def toHex (b : Byte) : String :=
  String.ofList [hexDigit (b.toNat / 16), hexDigit (b.toNat % 16)]

/-! ### Names -/

/-- A byte that may begin a name: a letter or the underscore. -/
def isIdentStart (b : Byte) : Bool :=
  isLetter b || b == ofChar '_'

/-- A byte that may continue a name: also a decimal digit. -/
def isIdentContinue (b : Byte) : Bool :=
  isIdentStart b || isDecimal b

/-! ### Layout and delimiters -/

/-- Horizontal white space: tab, vertical tab, form feed, carriage return and space. -/
def isBlank (b : Byte) : Bool :=
  b == 0x09 || b == 0x0B || b == 0x0C || b == 0x0D || b == 0x20

/-- ASCII punctuation, the bytes that may delimit a percent literal. -/
def isPunctuation (b : Byte) : Bool :=
  (0x21 ≤ b && b ≤ 0x2F) || (0x3A ≤ b && b ≤ 0x40) || (0x5B ≤ b && b ≤ 0x60) ||
    (0x7B ≤ b && b ≤ 0x7E)

end Byte

end ScriptLexer
