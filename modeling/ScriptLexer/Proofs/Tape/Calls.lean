import ScriptLexer.Proofs.Tape.Onward

/-!
# Calls of a tape, in any order

A lexer makes its calls of a tape in an order of its own. Here they are made in any order and with
any arguments, and what a tape promises to whoever calls it is promised for all of them.

What carries the argument is that bytes are written behind the reading offset only, so that what is
unread is as the script has it. It has to be said with care: the end of input may be forced anywhere,
and then bytes that were rewritten lie past the end. So `Tape.Unspoilt` tells where the unread bytes
come from only if there are any. Of a tape at its end nothing more is needed, since nothing that is
called there reads or writes.

There are nine calls, but only four things that a call does: it reads a number of bytes, writes one
and reads it, forces the end, or reports. `Tape.perform_cases` says so once, and no other lemma has
a case for each call.

## Main definitions

* `Tape.Call`, `Tape.perform` — the calls that change a tape, and what each of them answers
* `performAll` — calls one after the other
* `MovesInSteps` — reading many bytes at once is reading them one by one
* `Tape.Unspoilt` — what is unread is as the script has it
* `Tape.Shows` — what can be seen of such a tape
* `Tape.Lasts` — what is not undone by any calls that follow

## Main results

* `Tape.movesInSteps` — every tape moves in steps
* `Tape.Unspoilt.performAll`, `Tape.Unspoilt.shows` — no calls spoil what is unread, and so a tape
  shows the script
* `Tape.toNat_add_count` — one report at most is kept, and is the one that is answered so
* `Tape.lasts_performAll` — what lasts over any calls
-/

namespace ScriptLexer

/-! ### Calls -/

/-- The calls that move a tape, write on it or report. -/
inductive Tape.Call where
  | advance
  | advanceBy (n : Nat)
  | advanceTo (p : Nat)
  | eatWhile (p : Byte → Bool)
  | eatLine
  | compact (skip : Nat) (b : Byte)
  | terminateAt (p : Nat)
  | report (cause : Malformation)
  | reportAt (p : Nat) (cause : Malformation)

/-- Makes one call. Only a report has an answer, which says whether it was kept. -/
def Tape.perform (call : Tape.Call) (t : Tape) : Except Misuse (Option Bool × Tape) :=
  match call with
  | .advance => .ok (none, t.advance)
  | .advanceBy n => .ok (none, t.advanceBy n)
  | .advanceTo p => (t.advanceTo p).map (none, ·)
  | .eatWhile p => .ok (none, t.eatWhile p)
  | .eatLine => .ok (none, t.eatLine)
  | .compact skip b => (t.compact skip b).map (none, ·)
  | .terminateAt p => .ok (none, t.terminateAt p)
  | .report cause => .ok ((t.report cause).map some id)
  | .reportAt p cause => .ok ((t.reportAt p cause).map some id)

section PerformAll

variable {ε σ : Type} (perform : Tape.Call → σ → Except ε (Option Bool × σ))

/-- Makes calls one after the other, of a tape or of what is called like one. -/
def performAll : List Tape.Call → σ → Except ε (List (Option Bool) × σ)
  | [], s => .ok ([], s)
  | call :: calls, s => do
    let (answer, s) ← perform call s
    let (answers, s) ← performAll calls s
    return (answer :: answers, s)

variable {perform} {call : Tape.Call} {calls : List Tape.Call} {s s' s'' : σ}
  {answer : Option Bool} {answers : List (Option Bool)}

theorem performAll_cons (h : perform call s = .ok (answer, s'))
    (hcalls : performAll perform calls s' = .ok (answers, s'')) :
    performAll perform (call :: calls) s = .ok (answer :: answers, s'') := by
  rw [performAll, h]
  show (do let (answers, s) ← performAll perform calls s'; return (answer :: answers, s)) = _
  rw [hcalls]
  rfl

theorem exists_of_performAll_cons
    (h : performAll perform (call :: calls) s = .ok (answers, s'')) :
    ∃ answer s' later, perform call s = .ok (answer, s')
      ∧ performAll perform calls s' = .ok (later, s'') ∧ answers = answer :: later := by
  obtain ⟨⟨answer, s'⟩, hcall, h⟩ := exists_of_bind_eq_ok h
  obtain ⟨⟨later, s⟩, hcalls, h⟩ := exists_of_bind_eq_ok h
  cases h
  exact ⟨answer, s', later, hcall, hcalls, rfl⟩

/-- **What every call keeps, any calls keep.** -/
theorem performAll_invariant {P : σ → Prop}
    (step : ∀ call ∈ calls, ∀ {s answer s'}, P s → perform call s = .ok (answer, s') → P s')
    (hs : P s) (h : performAll perform calls s = .ok (answers, s')) : P s' := by
  induction calls generalizing s answers with
  | nil =>
    cases h
    exact hs
  | cons call calls ih =>
    obtain ⟨answer, u, later, hcall, hcalls, -⟩ := exists_of_performAll_cons h
    rw [List.forall_mem_cons] at step
    exact ih step.2 (step.1 hs hcall) hcalls

variable (perform) in
/-- Reading many bytes at once, from offset `pos` on, is reading them one by one. -/
structure MovesInSteps (pos : Nat) (s : σ) : Prop where
  advanceBy : ∀ n, ∃ s', perform (.advanceBy n) s = .ok (none, s')
    ∧ performAll perform (List.replicate n .advance) s = .ok (List.replicate n none, s')
  advanceTo : ∀ p, pos ≤ p → ∃ s', perform (.advanceTo p) s = .ok (none, s')
    ∧ performAll perform (List.replicate (p - pos) .advance) s
      = .ok (List.replicate (p - pos) none, s')
  eatLine : ∃ s', perform .eatLine s = .ok (none, s')
    ∧ perform (.eatWhile (· != Byte.newline)) s = .ok (none, s')

end PerformAll

namespace Tape

variable {source : List Byte} {t t' : Tape} {call : Call} {calls : List Call}
  {answer : Option Bool} {answers : List (Option Bool)} {n skip : Nat} {b : Byte}

/-! ### Many bytes at once -/

/-- **Reading `n` bytes is reading one, `n` times.** -/
theorem performAll_advance (n : Nat) (t : Tape) :
    performAll perform (List.replicate n .advance) t
      = .ok (List.replicate n none, t.advanceBy n) := by
  induction n generalizing t with
  | zero =>
    rw [advanceBy_zero]
    rfl
  | succ n ih =>
    have hcall : perform .advance t = .ok (none, t.advanceBy 1) := by
      rw [perform, advance_eq_advanceBy]
    rw [List.replicate_succ, List.replicate_succ, performAll_cons hcall (ih _),
      advanceBy_advanceBy, Nat.add_comm]

/-- **Reading on while bytes satisfy `p`** is looking at the byte ahead, and reading it if it does. -/
theorem eatWhile_eq (p : Byte → Bool) (t : Tape) :
    t.eatWhile p = if t.atEnd || !p t.current then t else t.advance.eatWhile p := by
  rw [eatWhile, eatWhile, advance_eq_advanceBy, rest_advanceBy, advanceBy_advanceBy, atEnd, current]
  cases t.rest with
  | nil => exact advanceBy_zero t
  | cons b rest =>
    simp only [List.isEmpty_cons, Bool.false_or, List.headD_cons, List.drop_succ_cons,
      List.drop_zero]
    cases hb : p b with
    | false =>
      rw [List.takeWhile_cons_of_neg (by simp [hb])]
      exact advanceBy_zero t
    | true =>
      rw [List.takeWhile_cons_of_pos hb, List.length_cons, Nat.add_comm]
      rfl

/-- **Looking for the next line feed** is reading on while there is none. -/
theorem eatLine_eq (t : Tape) : t.eatLine = t.eatWhile (· != Byte.newline) := by
  have hlength : (t.rest.takeWhile (· != Byte.newline)).length
      = min (t.rest.findIdx (· == Byte.newline)) t.rest.length := by
    rw [List.takeWhile_eq_take_findIdx_not, List.length_take]
    simp only [bne, Bool.not_not]
  rw [eatLine, eatWhile, hlength]
  split
  · rename_i i hi
    obtain ⟨hlt, hindex⟩ := List.findIdx?_eq_some_iff_findIdx_eq.mp hi
    rw [hindex, Nat.min_eq_left (Nat.le_of_lt hlt)]
  · rename_i hnone
    rw [List.findIdx?_eq_none_iff_findIdx_eq.mp hnone, Nat.min_self]

/-- **Many bytes at once are read as one by one,** wherever the tape is. -/
theorem movesInSteps (t : Tape) : MovesInSteps perform t.pos t where
  advanceBy n := ⟨t.advanceBy n, rfl, performAll_advance n t⟩
  advanceTo p hp := by
    refine ⟨t.advanceBy (p - t.pos), ?_, performAll_advance _ t⟩
    rw [perform, advanceTo, if_pos hp]
    rfl
  eatLine := ⟨t.eatLine, rfl, by rw [eatLine_eq]; rfl⟩

/-! ### What one call does -/

/-- **What a call does:** it reads a number of bytes, writes one, forces the end, or reports. -/
theorem perform_cases (h : t.perform call = .ok (answer, t')) :
    (answer = none ∧ ∃ n, t' = t.advanceBy n)
      ∨ (answer = none ∧ ∃ skip b, t.compact skip b = .ok t')
      ∨ (answer = none ∧ ∃ p, call = .terminateAt p ∧ t' = t.terminateAt p)
      ∨ ∃ p cause, answer = some (t.reportAt p cause).1 ∧ t' = (t.reportAt p cause).2 := by
  cases call with
  | advance =>
    cases h
    exact .inl ⟨rfl, 1, advance_eq_advanceBy t⟩
  | advanceBy n =>
    cases h
    exact .inl ⟨rfl, n, rfl⟩
  | advanceTo p =>
    simp only [perform, advanceTo] at h
    split at h
    · cases h
      exact .inl ⟨rfl, _, rfl⟩
    · cases h
  | eatWhile p =>
    cases h
    exact .inl ⟨rfl, _, rfl⟩
  | eatLine =>
    cases h
    exact .inl ⟨rfl, _, eatLine_eq t⟩
  | compact skip b =>
    rw [perform] at h
    cases hcompact : t.compact skip b with
    | error e =>
      rw [hcompact] at h
      cases h
    | ok u =>
      rw [hcompact] at h
      cases h
      exact .inr (.inl ⟨rfl, skip, b, hcompact⟩)
  | terminateAt p =>
    cases h
    exact .inr (.inr (.inl ⟨rfl, p, rfl, rfl⟩))
  | report cause =>
    cases h
    exact .inr (.inr (.inr ⟨t.pos, cause, rfl, rfl⟩))
  | reportAt p cause =>
    cases h
    exact .inr (.inr (.inr ⟨p, cause, rfl, rfl⟩))

/-- What writing does: nothing at the end, and else a byte of the buffer is another then, and the one
ahead is read. -/
theorem compact_cases (h : t.compact skip b = .ok t') :
    (t.rest = [] ∧ t' = t)
      ∨ ∃ c rest, t.rest = c :: rest ∧ t'.rest = rest ∧ t'.pos = t.pos + 1
        ∧ t'.buffer = t.buffer.set (t.pos - skip) b
        ∧ t'.beyond = t.beyond ∧ t'.diagnostic = t.diagnostic := by
  rw [compact] at h
  split at h
  · split at h
    · rename_i hrest
      cases h
      exact .inl ⟨hrest, rfl⟩
    · rename_i c rest hrest
      cases h
      refine .inr ⟨c, rest, hrest, rfl, ?_, ?_, rfl, rfl⟩
      · rw [pos, Array.size_setIfInBounds, Array.size_push]
        rfl
      · have hplace : t.pos - skip < (t.past.toList ++ [c]).length := by
          rw [List.length_append, Array.length_toList, List.length_singleton]
          exact Nat.lt_succ_of_le (Nat.sub_le _ _)
        have hbuffer : t.buffer = (t.past.toList ++ [c]) ++ (rest ++ t.beyond) := by
          simp [buffer, hrest]
        rw [hbuffer, List.set_append_left _ _ hplace, buffer, Array.toList_setIfInBounds,
          Array.toList_push, List.append_assoc _ rest]
  · cases h

theorem buffer_terminateAt (p : Nat) (t : Tape) : (t.terminateAt p).buffer = t.buffer := by
  show (t.buffer.take p).toArray.toList ++ [] ++ t.buffer.drop p = _
  rw [List.append_nil, List.take_append_drop]

theorem reportAt_eq (p : Nat) (cause : Malformation) (t : Tape) :
    t.reportAt p cause = (t.diagnostic.isNone, t.keep (some ⟨p, cause⟩)) := by
  rw [← noteAt_eq_keep, noteAt, reportAt]
  cases t.diagnostic <;> rfl

/-! ### What is unread -/

/-- As long as bytes are unread, they are as the script has them, up to its end. -/
structure Unspoilt (source : List Byte) (t : Tape) : Prop where
  size : t.size = source.length
  ahead : t.rest ≠ [] → t.rest = source.drop t.pos ∧ t.beyond = []

namespace Unspoilt

theorem ofBytes (source : List Byte) : Unspoilt source (.ofBytes source) where
  size := by simp [Tape.size, Tape.ofBytes]
  ahead _ := ⟨rfl, rfl⟩

theorem advanceBy (h : Unspoilt source t) (n : Nat) : Unspoilt source (t.advanceBy n) where
  size := by rw [← length_buffer, buffer_advanceBy, length_buffer, h.size]
  ahead hrest := by
    rw [rest_advanceBy] at hrest
    have hn : n < t.rest.length := by simpa using hrest
    obtain ⟨hahead, hbeyond⟩ := h.ahead (List.ne_nil_of_length_pos (Nat.zero_lt_of_lt hn))
    refine ⟨?_, hbeyond⟩
    rw [rest_advanceBy, pos_advanceBy, Nat.min_eq_left (Nat.le_of_lt hn), hahead, List.drop_drop]

theorem compact (h : Unspoilt source t) (hcompact : t.compact skip b = .ok t') :
    Unspoilt source t' := by
  rcases compact_cases hcompact with ⟨-, rfl⟩ | ⟨c, rest, hrest, hrest', hpos, hbuffer, hbeyond', -⟩
  · exact h
  · obtain ⟨hahead, hbeyond⟩ := h.ahead (by rw [hrest]; exact List.cons_ne_nil c rest)
    constructor
    · rw [← length_buffer, hbuffer, List.length_set, length_buffer, h.size]
    · intro _
      refine ⟨?_, hbeyond'.trans hbeyond⟩
      rw [hpos, ← List.drop_drop, ← hahead, hrest, hrest']
      rfl

theorem terminateAt (h : Unspoilt source t) (p : Nat) : Unspoilt source (t.terminateAt p) where
  size := by rw [← length_buffer, buffer_terminateAt, length_buffer, h.size]
  ahead hrest := absurd rfl hrest

/-- **No call spoils what is unread.** -/
theorem perform (h : Unspoilt source t) (hcall : t.perform call = .ok (answer, t')) :
    Unspoilt source t' := by
  rcases perform_cases hcall with ⟨-, n, rfl⟩ | ⟨-, skip, b, hcompact⟩ | ⟨-, p, -, rfl⟩
    | ⟨p, cause, -, rfl⟩
  · exact h.advanceBy n
  · exact h.compact hcompact
  · exact h.terminateAt p
  · rw [reportAt_eq]
    exact ⟨h.size, h.ahead⟩

/-- **No calls spoil what is unread.** -/
theorem performAll (h : Unspoilt source t)
    (hcalls : performAll Tape.perform calls t = .ok (answers, t')) : Unspoilt source t' :=
  performAll_invariant (fun _ _ _ _ _ hs hcall => hs.perform hcall) h hcalls

/-- The buffer begins with what has been read, and what is unread is the rest of it. -/
theorem size_eq (h : Unspoilt source t) (hrest : t.rest ≠ []) :
    t.pos + t.rest.length = source.length := by
  have hsize := h.size
  rw [Tape.size, (h.ahead hrest).2, List.length_nil, Nat.add_zero] at hsize
  exact hsize

end Unspoilt

/-- What can be seen of a tape, in terms of the script. -/
structure Shows (source : List Byte) (t : Tape) : Prop where
  pos_le : t.pos ≤ source.length
  length_buffer : t.buffer.length = source.length
  /-- Before the end, the bytes ahead are the script's own, however the buffer was rewritten. -/
  unread : t.atEnd = false →
    t.pos < source.length ∧ source[t.pos]? = some t.current ∧ t.rest = source.drop t.pos
  peek? : t.atEnd = false →
    ∀ n, t.peek? n = if n ≤ t.rest.length then some (t.rest.take n) else none
  peekByte : ∀ k, t.peekByte k = t.rest[k]?.getD 0
  /-- At the end there is nothing to see. -/
  ended : t.atEnd → t.current = 0 ∧ t.rest = [] ∧ ∀ n, t.peek? n = none

/-- **A tape that is not spoilt shows the script.** -/
theorem Unspoilt.shows (h : Unspoilt source t) : Shows source t where
  pos_le := by
    rw [← h.size, Tape.size, Nat.add_assoc]
    exact Nat.le_add_right _ _
  length_buffer := by rw [Tape.length_buffer, h.size]
  unread hend := by
    have hrest := atEnd_eq_false_iff.mp hend
    have hsource := (h.ahead hrest).1
    have hlength := List.length_pos_iff.mpr hrest
    have hsize := h.size_eq hrest
    refine ⟨by omega, ?_, hsource⟩
    rw [current, List.headD_eq_head?_getD, hsource, List.head?_drop,
      List.getElem?_eq_getElem (by omega), Option.getD_some]
  peek? hend n := by rw [Tape.peek?, hend, if_neg Bool.false_ne_true]
  peekByte k := List.getD_eq_getElem?_getD
  ended hend := by
    have hrest := atEnd_iff.mp hend
    refine ⟨?_, hrest, fun n => ?_⟩
    · rw [current, hrest]
      rfl
    · rw [Tape.peek?, if_pos hend]

/-! ### At the end -/

/-- At the end, a call changes no byte, and only another forced end changes the offset. -/
theorem perform_of_atEnd (hend : t.atEnd) (h : t.perform call = .ok (answer, t')) :
    t'.atEnd ∧ t'.buffer = t.buffer ∧ ((∀ p, call ≠ .terminateAt p) → t'.pos = t.pos) := by
  rcases perform_cases h with ⟨-, n, rfl⟩ | ⟨-, skip, b, hcompact⟩ | ⟨-, p, rfl, rfl⟩
    | ⟨p, cause, -, rfl⟩
  · rw [advanceBy_of_atEnd hend]
    exact ⟨hend, rfl, fun _ => rfl⟩
  · rcases compact_cases hcompact with ⟨-, rfl⟩ | ⟨c, rest, hrest, -⟩
    · exact ⟨hend, rfl, fun _ => rfl⟩
    · rw [atEnd_iff, hrest] at hend
      cases hend
  · exact ⟨rfl, buffer_terminateAt p t, fun hother => absurd rfl (hother p)⟩
  · rw [reportAt_eq]
    exact ⟨hend, rfl, fun _ => rfl⟩

/-! ### Reports -/

/-- A call is answered with `true` if it makes the first report, and else it changes none. -/
theorem diagnostic_perform (h : t.perform call = .ok (answer, t')) :
    (answer = some true ∧ t.diagnostic = none ∧ t'.diagnostic.isSome)
      ∨ (answer ≠ some true ∧ t'.diagnostic = t.diagnostic) := by
  rcases perform_cases h with ⟨rfl, n, rfl⟩ | ⟨rfl, skip, b, hcompact⟩ | ⟨rfl, p, -, rfl⟩
    | ⟨p, cause, rfl, rfl⟩
  · exact .inr ⟨nofun, rfl⟩
  · rcases compact_cases hcompact with ⟨-, rfl⟩ | ⟨c, rest, -, -, -, -, -, hsame⟩
    · exact .inr ⟨nofun, rfl⟩
    · exact .inr ⟨nofun, hsame⟩
  · exact .inr ⟨nofun, rfl⟩
  · rw [reportAt_eq]
    cases hd : t.diagnostic with
    | none => exact .inl ⟨rfl, rfl, by simp [keep, hd]⟩
    | some d => exact .inr ⟨by simp, by simp [keep, hd]⟩

/-- **Over any calls, one report at most is kept,** and it is the one that is answered so. -/
theorem toNat_add_count (h : performAll perform calls t = .ok (answers, t')) :
    t.diagnostic.isSome.toNat + answers.count (some true) = t'.diagnostic.isSome.toNat := by
  induction calls generalizing t answers with
  | nil =>
    cases h
    rfl
  | cons call calls ih =>
    obtain ⟨answer, u, later, hcall, hcalls, rfl⟩ := exists_of_performAll_cons h
    rw [← ih hcalls]
    rcases diagnostic_perform hcall with ⟨rfl, hnone, hsome⟩ | ⟨hanswer, hsame⟩
    · rw [List.count_cons_self, hnone, hsome]
      simp [Nat.add_comm]
    · rw [List.count_cons_of_ne hanswer, hsame]

/-! ### What lasts -/

/-- What calls that follow one another do not undo. -/
structure Lasts (calls : List Call) (t t' : Tape) : Prop where
  /-- The first report is kept. -/
  diagnostic : ∀ d, t.diagnostic = some d → t'.diagnostic = some d
  /-- Behind the end no byte is read or written. -/
  atEnd : t.atEnd → t'.atEnd ∧ t'.buffer = t.buffer
  /-- And nobody moves but who forces the end elsewhere. -/
  pos : t.atEnd → (∀ call ∈ calls, ∀ p, call ≠ .terminateAt p) → t'.pos = t.pos

/-- **What lasts over any calls.** -/
theorem lasts_performAll (h : performAll perform calls t = .ok (answers, t')) :
    Lasts calls t t' where
  diagnostic d hd := by
    refine performAll_invariant (P := fun u => u.diagnostic = some d) ?_ hd h
    intro call _ u answer u' hu hcall
    rcases diagnostic_perform hcall with ⟨-, hnone, -⟩ | ⟨-, hsame⟩
    · rw [hnone] at hu
      cases hu
    · rw [hsame, hu]
  atEnd hend := by
    refine performAll_invariant (P := fun u => u.atEnd ∧ u.buffer = t.buffer) ?_ ⟨hend, rfl⟩ h
    intro call _ u answer u' hu hcall
    obtain ⟨hend', hbuffer, -⟩ := perform_of_atEnd hu.1 hcall
    exact ⟨hend', hbuffer.trans hu.2⟩
  pos hend hcalls := by
    have hinvariant : t'.atEnd ∧ t'.pos = t.pos := by
      refine performAll_invariant (P := fun u => u.atEnd ∧ u.pos = t.pos) ?_ ⟨hend, rfl⟩ h
      intro call hmem u answer u' hu hcall
      obtain ⟨hend', -, hpos⟩ := perform_of_atEnd hu.1 hcall
      exact ⟨hend', (hpos (hcalls call hmem)).trans hu.2⟩
    exact hinvariant.2

end Tape

end ScriptLexer
