import ScriptLexer.Misuse

/-!
# Spans

A span is a half-open range of byte offsets. Spans that come from the lexer are built by
`Span.between`, which refuses a range that ends before it begins; a span can also be written down
by its two ends, and is then only as good as those.
-/

namespace ScriptLexer

/-- The offsets from `start` up to, but not including, `stop`. -/
structure Span where
  start : Nat
  stop : Nat
  deriving DecidableEq, Repr

namespace Span

/-- The span from `start` to `stop`, which must not lie before `start`. -/
def between (start stop : Nat) : Except Misuse Span :=
  if start ≤ stop then .ok ⟨start, stop⟩ else .error .reversedSpan

/-- The number of offsets in the span. -/
def length (s : Span) : Nat :=
  s.stop - s.start

/-- Whether the span has no offsets. -/
def isEmpty (s : Span) : Bool :=
  s.start == s.stop

/-- The bytes under the span, if it lies within the buffer. -/
def slice? {α : Type} (s : Span) (buffer : List α) : Option (List α) :=
  if s.start ≤ s.stop ∧ s.stop ≤ buffer.length then
    some ((buffer.drop s.start).take s.length)
  else none

end Span

end ScriptLexer
