import ScriptLexer.Lexer.Statement

/-!
# Reading the next token

`Lexer.next` reads one token in the region of the innermost construct. It can be asked for tokens
for ever: from the end of the script on, every token is an `endOfInput` at the same offset.

A construct that is still open at the end of the script is reported there. The report names what
is missing: the end of a string or of a heredoc if the innermost construct is one, and otherwise
the number of constructs.
-/

namespace ScriptLexer.Lexer

/-- Comes to where the next token begins: behind layout, if statements are read. -/
def settle (l : Lexer) : Lexer :=
  if l.stack.top.region.holdsStatements then
    match l.tape.skipLayout l.stack.top.lookback with
    | (tape, lookback) => ⟨tape.honourEndMarker, l.stack.withLookback lookback⟩
  else l

/-- What is missing at the end of the script, if a construct is open there. -/
def missing (s : Stack) : Malformation :=
  match s.top.region with
  | .quoted _ => .unterminatedString
  | .heredocBody _ => .unterminatedHeredoc
  | _ => .unclosedContext (s.depth - 1)

/-- Reports a construct that is open at the end of the script, and gives the token that stands
for the end. -/
def finish (l : Lexer) : Token × Lexer :=
  (.bare l.pos .endOfInput,
    if 1 < l.depth then { l with tape := l.tape.noteAt l.pos (missing l.stack) } else l)

/-- Reads the token that begins with `b` in the construct of a frame. -/
def read (f : Frame) (b : Byte) (rest : List Byte) (t : Tape) : Except Misuse Reading :=
  match f.region with
  | .statements => Reading.statement f.lookback b rest t
  | .quoted close => Reading.resumedString close t
  | .interpolation braces =>
    if braces = 0 ∧ b = Byte.ofChar '\x7d' then
      .ok ⟨.bare t.pos .insertEnd, .pop, t.advance⟩
    else Reading.statement f.lookback b rest t
  | .heredocLine heredoc =>
    if b = Byte.newline then
      .ok ⟨.bare t.pos .newLine, .swap (.heredocBody heredoc), t.advance⟩
    else Reading.statement f.lookback b rest t
  | .heredocBody heredoc => Reading.heredocBody heredoc t

/-- Reads the token that begins at the reading offset, or the end of the script. -/
def step (l : Lexer) : Except Misuse (Token × Lexer) :=
  match l.tape.rest with
  | [] => .ok l.finish
  | b :: rest => do
    let r ← read l.stack.top b rest l.tape
    return (r.token, ⟨r.tape, l.stack.commit r.shift r.token.kind⟩)

/-- Reads the next token. -/
def next (l : Lexer) : Except Misuse (Token × Lexer) :=
  l.settle.step

end ScriptLexer.Lexer
