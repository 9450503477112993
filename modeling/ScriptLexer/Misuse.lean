/-!
# Calls outside a contract

The script never makes an operation fail: malformed input is recorded as a diagnostic, and
reading goes on. What can fail is a call whose *arguments* break the operation's contract, such
as a span that ends before it begins. Such a call has no result, and the cause is named here.

That the lexer itself makes no such call is a theorem about the lexer, and it can only be stated
because the operations below it answer in `Except Misuse`.
-/

namespace ScriptLexer

/-- Why a call has no result. -/
inductive Misuse where
  /-- A span would end before it begins. -/
  | reversedSpan
  /-- A span reaches past the end of the buffer. -/
  | outOfBounds
  /-- A forward jump names an offset that has already been read. -/
  | alreadyRead
  /-- A byte would be written before the start of the buffer. -/
  | beforeStart
  deriving DecidableEq, Repr

/-- What a computation answers with that goes on, its first part answers with too. -/
theorem exists_of_bind_eq_ok {ε α β : Type} {x : Except ε α} {f : α → Except ε β} {b : β}
    (h : x >>= f = .ok b) : ∃ a, x = .ok a ∧ f a = .ok b := by
  cases x with
  | error e => cases h
  | ok a => exact ⟨a, rfl, h⟩

end ScriptLexer
