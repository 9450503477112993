import ScriptLexer.Context.Stack
import ScriptLexer.Tape.Basic
import ScriptLexer.Token

/-!
# The state of the lexer

A lexer is a tape and the stack of the constructs that are open at its reading offset. Reading a
token gives a `Reading`: the token, the tape behind it, and what the token does to the stack. The
stack is changed in one place only, from what the reading says.
-/

namespace ScriptLexer

/-- A script that is being divided into tokens. -/
structure Lexer where
  tape : Tape
  stack : Stack
  deriving DecidableEq, Repr

/-- A token that has been read. -/
structure Reading where
  token : Token
  /-- What the token does to the open constructs. -/
  shift : Shift
  /-- The tape behind the token. -/
  tape : Tape
  deriving DecidableEq, Repr

namespace Reading

/-- A token without a literal that opens and closes nothing. -/
def bare (pos : Nat) (kind : Kind) (tape : Tape) : Reading :=
  ⟨.bare pos kind, .stay, tape⟩

/-- A token whose literal is `span`. -/
def withLiteral (pos : Nat) (kind : Kind) (span : Span) (shift : Shift) (tape : Tape) :
    Reading :=
  ⟨.withLiteral pos kind span, shift, tape⟩

/-- A token whose literal is its own text: the bytes from `start` to the reading offset. -/
def spelled (pos start : Nat) (kind : Kind) (shift : Shift) (tape : Tape) :
    Except Misuse Reading := do
  let span ← Span.between start tape.pos
  return .withLiteral pos kind span shift tape

end Reading

namespace Lexer

/-- The lexer of a script of which nothing has been read. -/
def ofBytes (source : List Byte) : Lexer :=
  ⟨.ofBytes source, .base⟩

/-- The offset up to which the script has been read. -/
def pos (l : Lexer) : Nat :=
  l.tape.pos

/-- The number of open constructs, the script itself included. -/
def depth (l : Lexer) : Nat :=
  l.stack.depth

/-- The first malformation of the script, as far as it has been read. -/
def diagnostic (l : Lexer) : Option Diagnostic :=
  l.tape.diagnostic

/-- The decoded bytes of a token's literal. -/
def literal (token : Token) (l : Lexer) : Except Misuse (Option (List Byte)) :=
  match token.literal with
  | none => .ok none
  | some span => (l.tape.slice span).map some

end Lexer

end ScriptLexer
