import ScriptLexer.Diagnostic
import ScriptLexer.Span

/-!
# The reading tape

A tape is a script that is being read from its beginning to its end. Its *buffer* has the bytes of
the script in three parts: those that have been read, those still unread, and those past a forced
end, which will never be read. The reading offset is the number of bytes read.

Literals are decoded in place. A decoded byte is written `skip` places behind the reading offset,
where `skip` counts the bytes that decoding has elided so far from the literal at hand. So
`compact` only touches bytes already read, and what is unread is always as the script has it. The
part that decoding freed, between the end of a decoded literal and the reading offset, keeps stale
bytes.

## Implementation notes

The read part is an array and the unread part a list: reading is by pattern on the list, writing
by index in the array. At the end of input the unread part is empty, whether the script ended
there or was made to end there by `terminateAt`; every way of moving forward is then without
effect.

Offsets are natural numbers, and a script may have any length. A machine has offsets of 32 bits and
reads at most `2 ^ 32 - 1` bytes of a script, as if no more were there; here a longer script is read
to its end. So where a theorem about tapes, or about lexers on them, bounds no length, it tells what
a machine does for scripts of fewer than `2 ^ 32` bytes only. That bound is `Word.offsets`, and the
theorems about machine words have it as a hypothesis.

Calls whose arguments cannot be honoured answer with the `Misuse` they commit.
-/

namespace ScriptLexer

/-- A script that is being read, with the first diagnostic that came up. -/
structure Tape where
  /-- The bytes already read, some of them overwritten since. -/
  past : Array Byte
  /-- The bytes still unread. -/
  rest : List Byte
  /-- The bytes past a forced end of input. -/
  beyond : List Byte
  /-- The first malformation that was reported. -/
  diagnostic : Option Diagnostic
  deriving DecidableEq, Repr

namespace Tape

/-- The tape of a script of which nothing has been read. -/
def ofBytes (source : List Byte) : Tape :=
  ⟨#[], source, [], none⟩

/-! ### Looking -/

/-- The reading offset. -/
def pos (t : Tape) : Nat :=
  t.past.size

/-- All bytes of the tape, in order. -/
def buffer (t : Tape) : List Byte :=
  t.past.toList ++ t.rest ++ t.beyond

/-- The number of bytes of the tape. -/
def size (t : Tape) : Nat :=
  t.past.size + t.rest.length + t.beyond.length

/-- Whether the end of input has been reached. -/
def atEnd (t : Tape) : Bool :=
  t.rest.isEmpty

/-- The byte at the reading offset, or zero at the end of input. -/
def current (t : Tape) : Byte :=
  t.rest.headD 0

/-- The unread byte `k` places ahead, or zero past the end. -/
def peekByte (k : Nat) (t : Tape) : Byte :=
  t.rest.getD k 0

/-- The next `n` unread bytes, if there are so many. At the end of input there are none to look
at, not even zero of them. -/
def peek? (n : Nat) (t : Tape) : Option (List Byte) :=
  if t.atEnd then none
  else if n ≤ t.rest.length then some (t.rest.take n)
  else none

/-- Whether the unread bytes begin with `text`. -/
def startsWith (text : List Byte) (t : Tape) : Bool :=
  text.isPrefixOf t.rest

/-- The byte at offset `i`. -/
def byteAt? (i : Nat) (t : Tape) : Option Byte :=
  if i < t.past.size then t.past[i]? else (t.rest ++ t.beyond)[i - t.past.size]?

/-- Whether a line begins at offset `i`: at the start of the script, and behind a line feed. -/
def isLineStart (i : Nat) (t : Tape) : Bool :=
  i == 0 || t.byteAt? (i - 1) == some Byte.newline

/-- The bytes under a span that lies within the buffer. Literals lie in the part already read. -/
def bytesUnder (s : Span) (t : Tape) : List Byte :=
  if s.stop ≤ t.past.size then (t.past.extract s.start s.stop).toList
  else (t.buffer.drop s.start).take s.length

/-- The bytes under a span. -/
def slice (s : Span) (t : Tape) : Except Misuse (List Byte) :=
  if s.stop < s.start then .error .reversedSpan
  else if t.size < s.stop then .error .outOfBounds
  else .ok (t.bytesUnder s)

/-- The bytes from `start` up to the reading offset. -/
def sliceFrom (start : Nat) (t : Tape) : Except Misuse (List Byte) :=
  t.slice ⟨start, t.pos⟩

/-- The offset `skip` places behind the reading offset. -/
def behind (skip : Nat) (t : Tape) : Except Misuse Nat :=
  if skip ≤ t.pos then .ok (t.pos - skip) else .error .beforeStart

/-! ### Moving forward -/

/-- Reads one byte, if one is left. -/
def advance (t : Tape) : Tape :=
  match t.rest with
  | [] => t
  | b :: rest => { t with past := t.past.push b, rest := rest }

/-- Reads `n` bytes, or as many as are left. -/
def advanceBy (n : Nat) (t : Tape) : Tape :=
  { t with past := t.past ++ t.rest.take n, rest := t.rest.drop n }

/-- Reads up to offset `p`, or to the end of input. -/
def advanceTo (p : Nat) (t : Tape) : Except Misuse Tape :=
  if t.pos ≤ p then .ok (t.advanceBy (p - t.pos)) else .error .alreadyRead

/-- Reads on while the bytes satisfy `p`. -/
def eatWhile (p : Byte → Bool) (t : Tape) : Tape :=
  t.advanceBy (t.rest.takeWhile p).length

/-- Reads up to the next line feed, which stays unread, or to the end of input. -/
def eatLine (t : Tape) : Tape :=
  match t.rest.findIdx? (· == Byte.newline) with
  | some i => t.advanceBy i
  | none => t.advanceBy t.rest.length

/-- Makes the input end at offset `p`, or where the buffer ends. -/
def terminateAt (p : Nat) (t : Tape) : Tape :=
  { t with past := (t.buffer.take p).toArray, rest := [], beyond := t.buffer.drop p }

/-! ### Writing -/

/-- Writes `b` at `skip` places behind the reading offset and reads one byte. Nothing is written
at the end of input. -/
def compact (skip : Nat) (b : Byte) (t : Tape) : Except Misuse Tape :=
  if skip ≤ t.pos then
    match t.rest with
    | [] => .ok t
    | c :: rest =>
      .ok { t with past := (t.past.push c).setIfInBounds (t.pos - skip) b, rest := rest }
  else .error .beforeStart

/-! ### Reporting -/

/-- Reports a malformation at offset `p`. The first report is kept; the answer says whether this
was it. -/
def reportAt (p : Nat) (cause : Malformation) (t : Tape) : Bool × Tape :=
  match t.diagnostic with
  | some _ => (false, t)
  | none => (true, { t with diagnostic := some ⟨p, cause⟩ })

/-- Reports a malformation at the reading offset. -/
def report (cause : Malformation) (t : Tape) : Bool × Tape :=
  t.reportAt t.pos cause

/-- The tape after a report at offset `p`. -/
def noteAt (p : Nat) (cause : Malformation) (t : Tape) : Tape :=
  (t.reportAt p cause).2

end Tape

end ScriptLexer
