import ScriptLexer.Lexed
import ScriptLexer.Proofs.Lexer.Step

/-!
# Calling again and again

A lexer can be asked for tokens any number of times. `Lexer.calls` asks it for a number of them, and
what every call preserves holds of every such sequence: `Lexer.calls_induction` is the induction,
once and for all, and `Lexer.Reads.calls_next` is what it says of the lexer of a script. Reading a
script to its end, with a budget, is a sequence of calls that stops behind the first token that
stands for the end.

## Main definitions

* `Lexer.calls` — a number of calls, one after another
* `Lexer.scan` — a call that shows the token's literal at once

## Main results

* `Lexer.calls_induction` — what a call carries on, any number of calls do
* `Lexer.Reads.calls_next` — every call answers, and what each preserves they preserve together
* `Lexer.Reads.runFor_eq_calls` — a run is the calls up to the first end of input
-/

namespace ScriptLexer.Lexer

/-- Reads the next token, and its literal as it is then. -/
def scan (l : Lexer) : Except Misuse ((Token × Option (List Byte)) × Lexer) := do
  let (token, l) ← l.next
  let literal ← l.literal token
  return ((token, literal), l)

section Calls

variable {α : Type} (call : Lexer → Except Misuse (α × Lexer))

/-- Calls `n` times, whether or not the script has come to its end. -/
def calls : (n : Nat) → Lexer → Except Misuse (List α × Lexer)
  | 0, l => .ok ([], l)
  | n + 1, l => do
    let (x, l) ← call l
    let (xs, l) ← calls n l
    return (x :: xs, l)

variable {call} {n : Nat} {l l' l'' : Lexer} {xs : List α} {x : α}

theorem calls_cons (hx : call l = .ok (x, l')) (h : calls call n l' = .ok (xs, l'')) :
    calls call (n + 1) l = .ok (x :: xs, l'') := by
  rw [calls, hx]
  show (do let (xs, l) ← calls call n l'; return (x :: xs, l)) = _
  rw [h]
  rfl

theorem exists_of_calls_succ (h : calls call (n + 1) l = .ok (xs, l'')) :
    ∃ x l' ys, call l = .ok (x, l') ∧ calls call n l' = .ok (ys, l'') ∧ xs = x :: ys := by
  obtain ⟨⟨x, l'⟩, hx, h⟩ := exists_of_bind_eq_ok h
  obtain ⟨⟨ys, m⟩, hys, h⟩ := exists_of_bind_eq_ok h
  cases h
  exact ⟨x, l', ys, hx, hys, rfl⟩

/-- One more call adds what it answers at the end. -/
theorem calls_snoc (h : calls call n l = .ok (xs, l')) (hx : call l' = .ok (x, l'')) :
    calls call (n + 1) l = .ok (xs ++ [x], l'') := by
  induction n generalizing l xs with
  | zero =>
    cases h
    exact calls_cons hx rfl
  | succ n ih =>
    obtain ⟨y, m, ys, hy, hys, rfl⟩ := exists_of_calls_succ h
    exact calls_cons hy (ih hys)

/-- More calls add what they answer at the end. -/
theorem calls_append {m : Nat} {ys : List α} (h : calls call n l = .ok (xs, l'))
    (h' : calls call m l' = .ok (ys, l'')) : calls call (n + m) l = .ok (xs ++ ys, l'') := by
  induction n generalizing l xs with
  | zero =>
    cases h
    rwa [Nat.zero_add]
  | succ n ih =>
    obtain ⟨y, k, zs, hy, hzs, rfl⟩ := exists_of_calls_succ h
    rw [Nat.add_right_comm]
    exact calls_cons hy (ih hzs)

theorem length_of_calls (h : calls call n l = .ok (xs, l')) : xs.length = n := by
  induction n generalizing l xs with
  | zero =>
    cases h
    rfl
  | succ n ih =>
    obtain ⟨y, m, ys, hy, hys, rfl⟩ := exists_of_calls_succ h
    rw [List.length_cons, ih hys]

/-- Calls that answer with a list answer with its parts, one after the other. -/
theorem exists_of_calls_append {ys : List α} (h : calls call n l = .ok (xs ++ ys, l'')) :
    ∃ m, calls call xs.length l = .ok (xs, m) ∧ calls call ys.length m = .ok (ys, l'') := by
  induction xs generalizing n l with
  | nil =>
    rw [List.nil_append] at h
    rw [← length_of_calls h] at h
    exact ⟨l, rfl, h⟩
  | cons x xs ih =>
    have hlength := length_of_calls h
    rw [List.cons_append, List.length_cons] at hlength
    subst hlength
    obtain ⟨y, m, zs, hy, hzs, hsplit⟩ := exists_of_calls_succ h
    cases hsplit
    obtain ⟨m', hxs, hys⟩ := ih hzs
    exact ⟨m', calls_cons hy hxs, hys⟩

theorem call_of_calls_singleton (h : calls call n l = .ok ([x], l')) : call l = .ok (x, l') := by
  obtain rfl : 1 = n := length_of_calls h
  obtain ⟨y, m, ys, hy, hys, hsplit⟩ := exists_of_calls_succ h
  cases hys
  cases hsplit
  exact hy

/-- What one call keeps, any number of calls keep. -/
theorem calls_invariant {P : Lexer → Prop}
    (step : ∀ {m x m'}, P m → call m = .ok (x, m') → P m') (hP : P l)
    (h : calls call n l = .ok (xs, l')) : P l' := by
  induction n generalizing l xs with
  | zero =>
    cases h
    exact hP
  | succ n ih =>
    obtain ⟨x, m, ys, hx, hys, -⟩ := exists_of_calls_succ h
    exact ih (step hP hx) hys

/-- **Induction on the calls.** What holds of no calls, and can be carried over one more, holds of
any number of them, and they answer. -/
theorem calls_induction {P : List α → Lexer → Prop} (start : P [] l)
    (step : ∀ {xs m}, P xs m → ∃ x m', call m = .ok (x, m') ∧ P (xs ++ [x]) m') (n : Nat) :
    ∃ xs l', calls call n l = .ok (xs, l') ∧ P xs l' := by
  induction n with
  | zero => exact ⟨[], l, rfl, start⟩
  | succ n ih =>
    obtain ⟨xs, m, hcalls, hP⟩ := ih
    obtain ⟨x, m', hx, hP'⟩ := step hP
    exact ⟨xs ++ [x], m', calls_snoc hcalls hx, hP'⟩

end Calls

variable {source : List Byte} {l l' : Lexer} {n : Nat}

/-- **Every call answers, and what each of them preserves they preserve together.** -/
theorem Reads.calls_next {P : List Token → Lexer → Prop} (h : l.Reads source) (start : P [] l)
    (step : ∀ {tokens m token m'}, m.Reads source → P tokens m → Moves source m token m' →
      P (tokens ++ [token]) m') (n : Nat) :
    ∃ tokens l', calls next n l = .ok (tokens, l') ∧ l'.Reads source ∧ P tokens l' := by
  refine calls_induction (P := fun tokens m => m.Reads source ∧ P tokens m) ⟨h, start⟩ ?_ n
  rintro tokens m ⟨hm, hP⟩
  obtain ⟨token, m', hnext, hmoves⟩ := exists_next hm
  exact ⟨token, m', hnext, hmoves.reads, step hm hP hmoves⟩

/-- The first of several calls moves the lexer as a call may do. -/
theorem Reads.exists_of_calls_succ {tokens : List Token} (h : l.Reads source)
    (hcalls : calls next (n + 1) l = .ok (tokens, l')) :
    ∃ token m later, l.next = .ok (token, m) ∧ Moves source l token m
      ∧ calls next n m = .ok (later, l') ∧ tokens = token :: later := by
  obtain ⟨token, m, later, hnext, hlater, htokens⟩ := Lexer.exists_of_calls_succ hcalls
  exact ⟨token, m, later, hnext, h.moves hnext, hlater, htokens⟩

/-- Any number of calls answers. -/
theorem exists_calls (source : List Byte) (n : Nat) :
    ∃ tokens l, calls next n (ofBytes source) = .ok (tokens, l) ∧ l.Reads source := by
  obtain ⟨tokens, l, hcalls, hl, -⟩ := (reads_ofBytes source).calls_next
    (P := fun _ _ => True) trivial (fun _ _ _ => trivial) n
  exact ⟨tokens, l, hcalls, hl⟩

/-- **A run is the calls up to the first end of input,** if its budget allows one call more than
there are bytes. -/
theorem Reads.runFor_eq_calls (h : l.Reads source) {budget : Nat}
    (hbudget : source.length < l.pos + budget) :
    ∃ init eoi l', runFor budget l = .ok (init ++ [eoi], l')
      ∧ calls next (init.length + 1) l = .ok (init ++ [eoi], l') ∧ l'.Reads source
      ∧ (∀ token ∈ init, token.kind ≠ .endOfInput) ∧ eoi.kind = .endOfInput := by
  induction budget generalizing l with
  | zero => exact absurd h.tape.pos_le (Nat.not_le.mpr hbudget)
  | succ budget ih =>
    obtain ⟨token, m, hnext, hmoves⟩ := exists_next h
    rw [runFor, hnext]
    by_cases hkind : token.kind = .endOfInput
    · refine ⟨[], token, m, ?_, calls_cons hnext rfl, hmoves.reads,
        List.forall_mem_nil _, hkind⟩
      simp only [bind, Except.bind, if_pos hkind]
      rfl
    · have hlt := hmoves.advances hkind
      have hle := hmoves.begins
      obtain ⟨init, eoi, l', hrun, hcalls, hl', hinit, heoi⟩ := ih hmoves.reads (by omega)
      refine ⟨token :: init, eoi, l', ?_, calls_cons hnext hcalls, hl', ?_, heoi⟩
      · simp only [bind, Except.bind, if_neg hkind, hrun]
        rfl
      · exact List.forall_mem_cons.mpr ⟨hkind, hinit⟩

/-- The calls up to the first end of input are a run, if its budget allows them. -/
theorem runFor_of_calls {init : List Token} {eoi : Token} {budget : Nat}
    (hinit : ∀ token ∈ init, token.kind ≠ .endOfInput) (heoi : eoi.kind = .endOfInput)
    (hbudget : init.length < budget)
    (hcalls : calls next (init.length + 1) l = .ok (init ++ [eoi], l')) :
    runFor budget l = .ok (init ++ [eoi], l') := by
  induction init generalizing l budget with
  | nil =>
    obtain ⟨budget, rfl⟩ := Nat.exists_eq_add_one.mpr hbudget
    rw [runFor, call_of_calls_singleton hcalls]
    simp only [bind, Except.bind, if_pos heoi]
    rfl
  | cons token init ih =>
    obtain ⟨budget, rfl⟩ := Nat.exists_eq_add_one.mpr (Nat.zero_lt_of_lt hbudget)
    rw [List.forall_mem_cons] at hinit
    obtain ⟨token', m, later, hnext, hlater, hsplit⟩ := exists_of_calls_succ hcalls
    cases hsplit
    rw [runFor, hnext]
    simp only [bind, Except.bind, if_neg hinit.1,
      ih hinit.2 (Nat.lt_of_succ_lt_succ hbudget) hlater]
    rfl

/-- A script is read to its end, and that is the calls up to the first end of input. -/
theorem run_eq_calls (source : List Byte) :
    ∃ init eoi l, (ofBytes source).run = .ok (init ++ [eoi], l)
      ∧ calls next (init.length + 1) (ofBytes source) = .ok (init ++ [eoi], l) ∧ l.Reads source
      ∧ (∀ token ∈ init, token.kind ≠ .endOfInput) ∧ eoi.kind = .endOfInput := by
  refine (reads_ofBytes source).runFor_eq_calls ?_
  show source.length < 0 + (source.length + 1)
  omega

end ScriptLexer.Lexer
