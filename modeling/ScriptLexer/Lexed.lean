import ScriptLexer.Lexer.Run

/-!
# Divided scripts

`lex` divides a whole text into tokens. What it gives keeps the buffer in which the literals were
decoded, so that they can be read when the lexer is gone.
-/

namespace ScriptLexer

/-- The tokens of a whole script. -/
structure Lexed where
  /-- The tokens in order; the last stands for the end of the script. -/
  tokens : List Token
  /-- The bytes of the script, with the literals decoded in place. -/
  buffer : List Byte
  /-- The first malformation of the script. -/
  diagnostic : Option Diagnostic
  deriving DecidableEq, Repr

/-- Divides a script into tokens. -/
def lexBytes (source : List Byte) : Except Misuse Lexed := do
  let (tokens, l) ← (Lexer.ofBytes source).run
  return ⟨tokens, l.tape.buffer, l.diagnostic⟩

/-- Divides a text into tokens. -/
def lex (source : String) : Except Misuse Lexed :=
  lexBytes source.toUTF8.data.toList

namespace Lexed

/-- The number of tokens. -/
def size (l : Lexed) : Nat :=
  l.tokens.length

/-- Whether there are no tokens. -/
def isEmpty (l : Lexed) : Bool :=
  l.tokens.isEmpty

/-- The token of an index. -/
def get? (i : Nat) (l : Lexed) : Option Token :=
  l.tokens[i]?

/-- The kinds of the tokens, in order. -/
def kinds (l : Lexed) : List Kind :=
  l.tokens.map (·.kind)

/-- The decoded bytes of a token's literal, if it has one and it lies in the buffer. -/
def literal? (token : Token) (l : Lexed) : Option (List Byte) :=
  token.literal.bind (·.slice? l.buffer)

end Lexed

end ScriptLexer
