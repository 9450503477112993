import ScriptLexer.Lexer.Next

/-!
# Reading all tokens

A run reads tokens up to the end of the script. Every token but the last takes at least one byte,
so a run over `n` unread bytes has at most `n + 1` tokens; that is the budget it gets.
-/

namespace ScriptLexer.Lexer

/-- Reads the next token, unless the script is at its end. -/
def next? (l : Lexer) : Except Misuse (Option Token × Lexer) := do
  let (token, l) ← l.next
  return (if token.kind = .endOfInput then none else some token, l)

/-- Reads at most `budget` tokens, up to and with the end of the script. -/
def runFor : (budget : Nat) → Lexer → Except Misuse (List Token × Lexer)
  | 0, l => .ok ([], l)
  | budget + 1, l => do
    let (token, l) ← l.next
    if token.kind = .endOfInput then return ([token], l)
    else
      let (tokens, l) ← runFor budget l
      return (token :: tokens, l)

/-- Reads all tokens that are left, with the end of the script as the last. -/
def run (l : Lexer) : Except Misuse (List Token × Lexer) :=
  l.runFor (l.tape.rest.length + 1)

end ScriptLexer.Lexer
