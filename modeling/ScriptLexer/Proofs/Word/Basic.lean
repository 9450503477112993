import ScriptLexer.Misuse

/-!
# Machine words

Offsets, lengths and digits are natural numbers everywhere else. Here they are words: a sum that
does not fit in its word, a difference that is negative, and a byte looked up where there is none
are faults, and so is a call outside a contract. What is computed on words answers in
`Except Fault`, in the same steps in which a machine would compute it.

Each computation on words is shown to be the one on numbers, where the bytes of a script are fewer
than the values of an offset. So nothing is proved of it that would not be known of the numbers, but
that it has no fault.

## Main definitions

* `Fault` — why a computation on words stops
* `Word.add`, `Word.mul`, `Word.sub` — the arithmetic of words
* `Word.lift` — a computation that has contracts, among those on words
-/

namespace ScriptLexer

/-- Why a computation on words stops. -/
inductive Fault where
  /-- A call is outside a contract. -/
  | misuse (cause : Misuse)
  /-- A sum or a product does not fit in its word. -/
  | overflow
  /-- A difference is negative. -/
  | underflow
  /-- There is no byte at an offset. -/
  | outOfBounds
  deriving DecidableEq, Repr

namespace Word

/-- The number of values of an offset, which has 32 bits. -/
def offsets : Nat := 0x100000000

/-- The number of values of a length in memory, which has 64 bits. -/
def sizes : Nat := 0x10000000000000000

/-- The number of values of a byte. -/
def bytes : Nat := 0x100

/-- The sum of two words, if it is one of `values`. -/
def add (values a b : Nat) : Except Fault Nat :=
  if a + b < values then .ok (a + b) else .error .overflow

/-- The product of two words, if it is one of `values`. -/
def mul (values a b : Nat) : Except Fault Nat :=
  if a * b < values then .ok (a * b) else .error .overflow

/-- The difference of two words, if it is not negative. -/
def sub (a b : Nat) : Except Fault Nat :=
  if b ≤ a then .ok (a - b) else .error .underflow

example : add offsets 0xFFFFFFFF 1 = .error .overflow ∧ sub 0 1 = .error .underflow :=
  ⟨rfl, rfl⟩

/-- A computation whose contracts are among the things that may fail. -/
def lift {α : Type} (x : Except Misuse α) : Except Fault α :=
  x.mapError .misuse

variable {values a b : Nat}

theorem add_eq (h : a + b < values) : add values a b = .ok (a + b) :=
  if_pos h

theorem mul_eq (h : a * b < values) : mul values a b = .ok (a * b) :=
  if_pos h

theorem sub_eq (h : b ≤ a) : sub a b = .ok (a - b) :=
  if_pos h

section Bind

variable {α β : Type}

@[simp] theorem lift_ok (x : α) : lift (.ok x) = .ok x :=
  rfl

theorem eq_ok_of_lift_eq_ok {x : Except Misuse α} {a : α} (h : lift x = .ok a) : x = .ok a := by
  cases x with
  | error e => cases h
  | ok b =>
    cases h
    rfl

@[simp] theorem ok_bind (x : α) (f : α → Except Fault β) : (.ok x >>= f : Except Fault β) = f x :=
  rfl

end Bind

end Word

end ScriptLexer
