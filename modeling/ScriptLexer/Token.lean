import ScriptLexer.Span
import ScriptLexer.Token.Kind

/-!
# Tokens

A token is a kind at an offset. The text of a token whose kind does not fix it is a span of the
lexer's buffer, in which escapes are decoded in place: the span bounds *decoded* bytes, and may be
shorter than the text the token was read from.
-/

namespace ScriptLexer

/-- A classified piece of a script. -/
structure Token where
  /-- The offset at which the token begins. -/
  pos : Nat
  kind : Kind
  /-- Where the text of the token lies in the buffer, for kinds whose text varies. -/
  literal : Option Span
  deriving DecidableEq, Repr

namespace Token

/-- A token without a literal. -/
def bare (pos : Nat) (kind : Kind) : Token :=
  ⟨pos, kind, none⟩

/-- A token whose literal is `span`. -/
def withLiteral (pos : Nat) (kind : Kind) (span : Span) : Token :=
  ⟨pos, kind, some span⟩

end Token

end ScriptLexer
