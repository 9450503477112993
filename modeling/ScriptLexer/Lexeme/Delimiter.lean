import ScriptLexer.Byte

/-!
# Delimiters of percent literals

A percent literal is opened by a percent sign, perhaps a letter, and a punctuation byte. The
letter `q` asks for verbatim text, the letter `Q` and no letter for decoded text. A bracket is
closed by its counterpart and any other delimiter by itself; brackets do not nest.
-/

namespace ScriptLexer

/-- The delimiters of a percent literal. -/
structure Delimiter where
  /-- The byte that closes the literal. -/
  close : Byte
  /-- Whether the text is verbatim. -/
  verbatim : Bool
  /-- The number of bytes of the opener, the percent sign left out. -/
  length : Nat
  deriving DecidableEq, Repr

namespace Delimiter

/-- The byte that closes what `opener` opens. -/
def closing (opener : Byte) : Byte :=
  if opener == Byte.ofChar '(' then Byte.ofChar ')'
  else if opener == Byte.ofChar '[' then Byte.ofChar ']'
  else if opener == Byte.ofChar '\x7b' then Byte.ofChar '\x7d'
  else if opener == Byte.ofChar '<' then Byte.ofChar '>'
  else opener

/-- Reads the punctuation byte of an opener that has `letters` bytes in front of it. -/
def ofPunctuation? (verbatim : Bool) (letters : Nat) : List Byte → Option Delimiter
  | [] => none
  | b :: _ => if Byte.isPunctuation b then some ⟨closing b, verbatim, letters + 1⟩ else none

/-- Reads an opener, the percent sign left out. -/
def read? : List Byte → Option Delimiter
  | 0x51 :: rest => ofPunctuation? false 1 rest  -- Q
  | 0x71 :: rest => ofPunctuation? true 1 rest  -- q
  | rest => ofPunctuation? false 0 rest

end Delimiter

end ScriptLexer
