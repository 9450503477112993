import ScriptLexer.Context.Lookback
import ScriptLexer.Diagnostic
import ScriptLexer.Lexeme.Delimiter
import ScriptLexer.Lexeme.Heredoc
import ScriptLexer.Lexeme.Layout
import ScriptLexer.Lexeme.Name
import ScriptLexer.Lexeme.Number
import ScriptLexer.Lexeme.Variable

/-!
# What begins a token of a statement

`Lexeme.read` looks at the bytes of a statement, with no layout in front of them, and says which
token they begin. It depends on the lookback of the construct in four places only:

* a sign that does not abut the token in front of it belongs to the number behind it;
* `<<` opens a heredoc under the same condition;
* a percent sign opens a literal where an operand is expected;
* a name takes an equals sign as its suffix where a method is being defined.

Where such an attempt comes to nothing, the bytes begin an operator, and that is always the
longest one.

## Implementation notes

A lexeme has the lengths of things, not the things themselves: the caller has the bytes. Literals
whose text has to be decoded are described by how they open.
-/

namespace ScriptLexer

/-- What begins a token of a statement. -/
inductive Lexeme where
  /-- A token of a kind whose text needs no literal. -/
  | bare (kind : Kind) (length : Nat)
  /-- A token of a kind, whose literal is its whole text. -/
  | spelled (kind : Kind) (length : Nat)
  /-- A quoted literal, whose text begins behind an opener of a number of bytes. -/
  | quoted (verbatim : Bool) (close : Byte) (opener : Nat)
  /-- A heredoc; the offsets in its opener are counted behind the `<<`. -/
  | heredoc (opener : HeredocOpener)
  /-- Malformed bytes, whose token has them as its literal or has no literal. -/
  | malformed (cause : Malformation) (length : Nat) (shown : Bool)
  deriving DecidableEq, Repr

namespace Lexeme

/-- The longest punctuator, or else an unexpected byte. -/
def punctuation (b : Byte) (rest : List Byte) : Lexeme :=
  match Punctuator.read? (b :: rest) with
  | some p => .bare (.punctuator p) p.bytes.length
  | none => .malformed (.unexpectedByte b) 1 true

/-- Reads on at a sign: a signed number, or an operator. -/
def signed (l : Lookback) (sign : Byte) (rest : List Byte) : Lexeme :=
  if Number.startsWithDigit rest && !l.abuts then
    match Number.read rest with
    | (kind, length) => .spelled kind (length + 1)
  else punctuation sign rest

/-- Reads on at `<`: a heredoc, or an operator. -/
def less (l : Lookback) (rest : List Byte) : Lexeme :=
  match rest with
  | 0x3C :: behind =>  -- <
    if l.abuts then punctuation 0x3C rest
    else
      match HeredocStart.read behind with
      | .accepted opener => .heredoc opener
      | .broken length => .malformed .invalidHeredocIdentifier (length + 2) true
      | .absent => punctuation 0x3C rest
  | _ => punctuation 0x3C rest

/-- Reads on at `%`: a literal, or an operator. The assigning operator is never a literal. -/
def percent (l : Lookback) (rest : List Byte) : Lexeme :=
  if rest.head? != some (Byte.ofChar '=') && l.expectsOperand then
    match Delimiter.read? rest with
    | some d => .quoted d.verbatim d.close (d.length + 1)
    | none => punctuation 0x25 rest
  else punctuation 0x25 rest

/-- Reads on at `=`: an operator, or a block comment that is never closed. -/
def equals (lineStart : Bool) (rest : List Byte) : Lexeme :=
  if BlockComment.opensAt lineStart (0x3D :: rest) then
    .malformed .unterminatedComment (rest.length + 1) false
  else punctuation 0x3D rest

/-- Reads on at a sigil. -/
def variableName (sigil : Byte) (rest : List Byte) : Lexeme :=
  match Variable.read? (sigil :: rest) with
  | some (.named kind length) => .spelled kind length
  | some (.nameless sigil length) => .malformed (.invalidVariableName sigil) length true
  | none => punctuation sigil rest

/-- Reads a name. -/
def name (l : Lookback) (rest : List Byte) : Lexeme :=
  match Name.read l.defining rest with
  | (.keyword k, length) => .bare (.keyword k) length
  | (kind, length) => .spelled kind length

/-- Reads what the byte `b` and the bytes behind it begin; `lineStart` tells whether a line begins
with `b`. -/
def read (l : Lookback) (lineStart : Bool) (b : Byte) (rest : List Byte) : Lexeme :=
  if Byte.isIdentStart b then name l (b :: rest)
  else if Byte.isDecimal b then
    match Number.read (b :: rest) with
    | (kind, length) => .spelled kind length
  else
    match b with
    | 0x0A => .bare .newLine 1
    | 0x3B => .bare .newLine 1  -- ;
    | 0x22 => .quoted false b 1  -- "
    | 0x27 => .quoted true b 1  -- '
    | 0x24 => variableName b rest  -- $
    | 0x40 => variableName b rest  -- @
    | 0x25 => percent l rest  -- %
    | 0x2B => signed l b rest  -- +
    | 0x2D => signed l b rest  -- -
    | 0x3C => less l rest  -- <
    | 0x3D => equals lineStart rest  -- =
    | 0x5C => .malformed .strayBackslash 1 false  -- a backslash
    | _ => punctuation b rest

end Lexeme

end ScriptLexer
