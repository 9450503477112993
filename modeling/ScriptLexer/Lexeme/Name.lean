import ScriptLexer.Token.Kind

/-!
# Names

A name is a run of letters, digits and underscores that does not begin with a digit. One that
begins in lower case, or with an underscore, may take a suffix and is then the name of a method: a
question or exclamation mark, unless an equals sign follows it, or, where a method is being
defined, an equals sign that does not begin another operator. A name whose whole text is reserved
is a keyword instead.
-/

namespace ScriptLexer.Name

/-- The length of the run of name bytes. -/
def run (rest : List Byte) : Nat :=
  (rest.takeWhile Byte.isIdentContinue).length

/-- Whether the bytes begin with a name. -/
def startsHere : List Byte → Bool
  | [] => false
  | b :: _ => Byte.isIdentStart b

/-- Whether an equals sign read before these bytes belongs to an operator. -/
def continuesOperator : List Byte → Bool
  | [] => false
  | b :: _ => b == Byte.ofChar '=' || b == Byte.ofChar '~' || b == Byte.ofChar '>'

/-- Whether the bytes begin with a suffix; `defining` tells whether the name of a method that is
being defined stands in front of them. -/
def hasSuffix (defining : Bool) : List Byte → Bool
  | [] => false
  | b :: rest =>
    if b == Byte.ofChar '?' || b == Byte.ofChar '!' then rest.head? != some (Byte.ofChar '=')
    else b == Byte.ofChar '=' && defining && !continuesOperator rest

/-- The kind of a name, if its text is not reserved, and the length of its text. -/
def shape (defining : Bool) (rest : List Byte) : Kind × Nat :=
  if rest.head?.any Byte.isUppercase then (.constant, run rest)
  else if hasSuffix defining (rest.drop (run rest)) then (.methodName, run rest + 1)
  else (.localVariable, run rest)

/-- Reads a name: its kind and its length. -/
def read (defining : Bool) (rest : List Byte) : Kind × Nat :=
  match shape defining rest with
  | (kind, length) =>
    match Keyword.ofBytes? (rest.take length) with
    | some k => (.keyword k, length)
    | none => (kind, length)

end ScriptLexer.Name
