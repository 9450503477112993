import ScriptLexer.Text.Piece

/-!
# Escapes

The pieces of decoded text that begin with a backslash:

* a letter that names a control byte, such as `n` for the line feed;
* a line feed, which stands for nothing, so that text can be wrapped;
* one to three octal digits, whose value is taken modulo 256;
* `x` and one or two hexadecimal digits;
* `c`, or `C` and a hyphen, and a byte whose control byte is meant;
* any other byte, which stands for itself.

An escape that the end of the script cuts off stands for nothing. `x` without a digit and `C`
without a hyphen are malformed: the two bytes stand for nothing, and the text goes on behind them.
-/

namespace ScriptLexer.Escape

/-- The control byte that a letter names. -/
def named? : Byte → Option Byte
  | 0x6E => some 0x0A  -- n
  | 0x74 => some 0x09  -- t
  | 0x72 => some 0x0D  -- r
  | 0x66 => some 0x0C  -- f
  | 0x76 => some 0x0B  -- v
  | 0x61 => some 0x07  -- a
  | 0x65 => some 0x1B  -- e
  | 0x62 => some 0x08  -- b
  | 0x73 => some 0x20  -- s
  | _ => none

/-- The control byte of a byte. A letter that names a control byte means that one. -/
def control (b : Byte) : Byte :=
  if b == Byte.ofChar '?' then 0x7F else (named? b).getD b &&& 0x9F

/-- The value of a run of octal digits, modulo 256. -/
def octalValue (digits : List Byte) : Byte :=
  digits.foldl (fun value b => value * 8 + (b - 0x30)) 0

/-- Reads an octal escape, the backslash left out. -/
def octal (rest : List Byte) : Piece :=
  let digits := (rest.take 3).takeWhile Byte.isOctal
  .coded digits.length (octalValue digits)

/-- Reads the digits of a hexadecimal escape. -/
def hexadecimal : List Byte → Piece
  | [] => .malformed 1 .invalidHexEscape
  | a :: rest =>
    match Byte.hexValue? a, rest.head?.bind Byte.hexValue? with
    | some x, some y => .coded 3 (x * 16 + y)
    | some x, none => .coded 2 x
    | none, _ => .malformed 1 .invalidHexEscape

/-- Reads the byte of a control escape, behind `more` bytes and the backslash. -/
def controlled (more : Nat) : List Byte → Piece
  | [] => .elided more
  | b :: _ => .coded (more + 1) (control b)

/-- Reads the hyphen and the byte of a control escape of the long form. -/
def longControl : List Byte → Piece
  | 0x2D :: rest => controlled 2 rest  -- -
  | _ => .malformed 1 .invalidEscape

/-- Reads an escape, the backslash left out. -/
def read : List Byte → Piece
  | [] => .elided 0
  | b :: rest =>
    match named? b with
    | some value => .coded 1 value
    | none =>
      if b == Byte.newline then .elided 1
      else if Byte.isOctal b then octal (b :: rest)
      else if b == Byte.ofChar 'x' then hexadecimal rest
      else if b == Byte.ofChar 'C' then longControl rest
      else if b == Byte.ofChar 'c' then controlled 1 rest
      else .coded 1 b

end ScriptLexer.Escape
