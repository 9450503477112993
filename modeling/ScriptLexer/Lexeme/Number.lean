import ScriptLexer.Token.Kind

/-!
# Numbers

Numbers are classified, not evaluated. A leading zero may bring a base, in which case digits are
optional; otherwise a number has a fraction if a digit follows the point, and an exponent if a
digit follows the letter and its sign. Underscores may stand anywhere behind the first digit of
each run.

`Number.read` is entered at the first digit of a number, a sign left out, and gives the kind and
the number of bytes. A single zero is a decimal integer.
-/

namespace ScriptLexer.Number

/-- The length of the longest run of digits of a base and underscores. -/
def digits (isDigit : Byte → Bool) (rest : List Byte) : Nat :=
  (rest.takeWhile fun b => isDigit b || b == Byte.ofChar '_').length

/-- Whether the bytes begin with a decimal digit. -/
def startsWithDigit : List Byte → Bool
  | [] => false
  | b :: _ => Byte.isDecimal b

/-- The length of a sign, if there is one. -/
def sign : List Byte → Nat
  | 0x2B :: _ => 1  -- +
  | 0x2D :: _ => 1  -- -
  | _ => 0

/-- The length of an exponent: a letter, a sign if there is one, and digits. It is zero unless
there is a digit. -/
def exponent : List Byte → Nat
  | [] => 0
  | b :: rest =>
    let mantissa := rest.drop (sign rest)
    if (b == Byte.ofChar 'e' || b == Byte.ofChar 'E') && startsWithDigit mantissa then
      1 + sign rest + digits Byte.isDecimal mantissa
    else 0

/-- The length of a point and the digits behind it. It is zero unless there is a digit. -/
def fraction : List Byte → Nat
  | 0x2E :: rest => if startsWithDigit rest then 1 + digits Byte.isDecimal rest else 0
  | _ => 0

/-- Reads on behind the whole part of a decimal number. -/
def tail (rest : List Byte) : Kind × Nat :=
  match fraction rest + exponent (rest.drop (fraction rest)) with
  | 0 => (.decimalInteger, 0)
  | length => (.float, length)

/-- Reads on behind a leading zero. -/
def afterZero : List Byte → Kind × Nat
  | [] => (.decimalInteger, 0)
  | b :: rest =>
    if b == Byte.ofChar 'd' || b == Byte.ofChar 'D' then
      (.decimalInteger, 1 + digits Byte.isDecimal rest)
    else if b == Byte.ofChar 'b' || b == Byte.ofChar 'B' then
      (.binaryInteger, 1 + digits Byte.isBinary rest)
    else if b == Byte.ofChar 'o' || b == Byte.ofChar 'O' || b == Byte.ofChar '_' then
      (.octalInteger, 1 + digits Byte.isOctal rest)
    else if b == Byte.ofChar 'x' || b == Byte.ofChar 'X' then
      (.hexadecimalInteger, 1 + digits Byte.isHexadecimal rest)
    else if Byte.isOctal b then
      (.octalInteger, 1 + digits Byte.isOctal rest)
    else tail (b :: rest)

/-- Reads on behind a whole part that begins with a nonzero digit, that digit left out. -/
def afterNonzero (rest : List Byte) : Kind × Nat :=
  match tail (rest.drop (digits Byte.isDecimal rest)) with
  | (kind, length) => (kind, digits Byte.isDecimal rest + length)

/-- Reads the number that begins the bytes: its kind and its length. -/
def read : List Byte → Kind × Nat
  | [] => (.decimalInteger, 0)
  | first :: rest =>
    match if first == Byte.ofChar '0' then afterZero rest else afterNonzero rest with
    | (kind, length) => (kind, length + 1)

end ScriptLexer.Number
