import ScriptLexer.Proofs.Lexer.Effect
import ScriptLexer.Proofs.Lexer.Step
import ScriptLexer.Proofs.Word.Reading

/-!
# The next token on machine words

A call of the lexer as a machine runs it. Besides the offsets of its tape it counts two things: the
braces that are open in an interpolation, and the constructs that are open around one another. Both
counts grow by one at most with each token, and a token has a byte at least, so neither is ever more
than the number of bytes read. That is the invariant `Lexer.Bounded`, and with it a call of a lexer
whose script has fewer bytes than an offset has values has no fault.

## Main definitions

* `Lexer.Bounded` — what is counted is no more than the bytes read
* `Word.next` — reads the next token

## Main results

* `Lexer.Bounded.next` — every call keeps the bounds
* `Word.next_eq` — a call has no fault of its own
-/

namespace ScriptLexer

/-! ### What is counted -/

/-- The number of braces that are open in a region. -/
def Region.braces : Region → Nat
  | interpolation braces => braces
  | statements | quoted _ | heredocLine _ | heredocBody _ => 0

/-- What is counted in a lexer is no more than the bytes it has read. -/
structure Lexer.Bounded (l : Lexer) : Prop where
  braces : ∀ f ∈ l.stack.frames, f.region.braces ≤ l.pos
  depth : l.stack.below.length ≤ l.pos

/-- A token opens one brace at most. -/
theorem Region.braces_countBrace_le (kind : Kind) (region : Region) :
    (Frame.countBrace kind region).braces ≤ region.braces + 1 := by
  cases region with
  | interpolation braces =>
    simp only [Frame.countBrace]
    split <;> simp only [Region.braces] <;> omega
  | statements | quoted _ | heredocLine _ | heredocBody _ => exact Nat.zero_le _

/-- A token opens one construct at most. -/
theorem Stack.length_below_commit_le (s : Stack) (shift : Shift) (kind : Kind) :
    (s.commit shift kind).below.length ≤ s.below.length + 1 := by
  obtain ⟨top, below⟩ := s
  cases shift with
  | stay | swap _ => exact Nat.le_succ _
  | push _ => exact Nat.le_refl _
  | pop => cases below <;> simp [commit]; omega

/-- No braces are open in a construct that has just been opened. -/
theorem Effect.braces_opened {region : Region} {kind : Kind} {shift : Shift}
    (h : Effect region kind shift) : ∀ opened ∈ shift.opened?, opened.braces = 0 := by
  intro opened hopened
  cases h <;> cases hopened <;> rfl

namespace Lexer

variable {source : List Byte} {l l' : Lexer} {token : Token}

theorem bounded_ofBytes (source : List Byte) : (ofBytes source).Bounded where
  braces := List.forall_mem_singleton.mpr (Nat.zero_le _)
  depth := Nat.zero_le _

/-- What is counted is not changed by settling. -/
theorem Bounded.settle (h : l.Bounded) (hl : l.Reads source) : l.settle.Bounded := by
  obtain ⟨-, hle, -⟩ := hl.settle
  obtain ⟨lookback, hstack⟩ := exists_settle_stack l
  constructor
  · intro f hf
    rw [hstack] at hf
    refine Nat.le_trans ?_ hle
    rcases List.mem_cons.mp hf with rfl | hf
    · exact h.braces l.stack.top List.mem_cons_self
    · exact h.braces f (List.mem_cons_of_mem _ hf)
  · rw [hstack]
    exact Nat.le_trans h.depth hle

/-- A token counts one at most, and has a byte at least. -/
theorem Bounded.commit (h : l.Bounded) {r : Reading} (hnests : r.Nests l.stack.top.region)
    (hlt : l.pos < r.tape.pos) :
    Bounded ⟨r.tape, l.stack.commit r.shift r.token.kind⟩ where
  braces := by
    refine Stack.forall_commit (P := fun region => region.braces ≤ l.pos)
      (Q := fun region => region.braces ≤ r.tape.pos) ?_ ?_ h.braces ?_
    · exact fun _ hle => Nat.le_trans hle (Nat.le_of_lt hlt)
    · intro region hle
      have hcount := Region.braces_countBrace_le r.token.kind region
      omega
    · intro region hopened
      rw [hnests.effect.braces_opened region hopened]
      exact Nat.zero_le _
  depth := by
    have hcommit := l.stack.length_below_commit_le r.shift r.token.kind
    have hdepth := h.depth
    show (l.stack.commit r.shift r.token.kind).below.length ≤ r.tape.pos
    omega

/-- A token that is read has a byte at least, and lies within the script. -/
theorem Reads.pos_of_read (h : l.Reads source) {b : Byte} {rest : List Byte} {r : Reading}
    (hrest : l.tape.rest = b :: rest) (hr : read l.stack.top b rest l.tape = .ok r) :
    l.pos < r.tape.pos ∧ r.tape.pos ≤ source.length := by
  obtain ⟨r', n, hr', hn, hlawful⟩ := exists_read hrest (h.named _ List.mem_cons_self)
  rw [hr] at hr'
  cases hr'
  refine ⟨?_, (h.tape.onward hlawful.onward).pos_le⟩
  rw [hlawful.onward.pos, Lexer.pos]
  omega

/-- **Every call keeps the bounds.** -/
theorem Bounded.next (h : l.Bounded) (hl : l.Reads source) (hnext : l.next = .ok (token, l')) :
    l'.Bounded := by
  have hsettled := hl.settle.1
  have hbounded := h.settle hl
  rcases next_cases hnext with ⟨hrest, rfl, rfl⟩ | ⟨b, rest, r, hrest, hr, rfl, rfl⟩
  · have hle := (hsettled.finish hrest).stops
    constructor
    · rw [finish_stack]
      exact fun f hf => Nat.le_trans (hbounded.braces f hf) hle
    · rw [finish_stack]
      exact Nat.le_trans hbounded.depth hle
  · exact hbounded.commit (nests_read hr) (hsettled.pos_of_read hrest hr).1

end Lexer

namespace Word

/-! ### The stack -/

/-- The number of open constructs. -/
def depth (s : Stack) : Except Fault Nat :=
  add sizes s.below.length 1

/-- Counts the braces that are open in an interpolation. A brace that closes none is not counted. -/
def countBrace (kind : Kind) : Region → Except Fault Region
  | .interpolation braces =>
    match kind with
    | .punctuator .leftBrace => do
      let braces ← add offsets braces 1
      return .interpolation braces
    | .punctuator .rightBrace => .ok (.interpolation (braces - 1))
    | _ => .ok (.interpolation braces)
  | region => .ok region

/-- The frame after a token of a kind has been read in it. -/
def record (kind : Kind) (f : Frame) : Except Fault Frame := do
  let region ← countBrace kind f.region
  return ⟨region, f.lookback.after kind⟩

/-- The stack after a token of a kind. -/
def commit (shift : Shift) (kind : Kind) (s : Stack) : Except Fault Stack :=
  match shift with
  | .stay => do
    let top ← record kind s.top
    return { s with top := top }
  | .push region => do
    let suspended ← record kind s.top
    return ⟨.enter region, suspended :: s.below⟩
  | .pop =>
    match s.below with
    | [] => do
      let top ← record kind s.top
      return { s with top := top }
    | f :: below => do
      let top ← record kind f
      return ⟨top, below⟩
  | .swap region => do
    let top ← record kind (.enter region)
    return { s with top := top }

/-! ### A call -/

/-- Skips all layout ahead and answers with the lookback behind it. -/
def skipLayout (l : Lookback) (t : Tape) : Except Fault (Tape × Lookback) := do
  let lineStart ← isLineStart t.pos t
  match _hread : Gap.read? lineStart t.rest with
  | none => return (t, l)
  | some g =>
    match _heat : eat g.length t with
    | .error e => .error e
    | .ok t' => skipLayout (l.afterGap g.separates) t'
termination_by t.rest.length
decreasing_by
  rw [length_rest_eat _heat, Gap.length]
  cases hrest : t.rest with
  | nil =>
    rw [hrest] at _hread
    cases _hread
  | cons b bytes =>
    rw [List.length_cons]
    omega

/-- Ends the script at the end marker, if the marker stands here on a line of its own. -/
def honourEndMarker (t : Tape) : Except Fault Tape := do
  let lineStart ← isLineStart t.pos t
  let ahead ← rest t
  return if lineStart && Line.isEndMarker ahead then t.terminateAt t.pos else t

/-- Comes to where the next token begins: behind layout, if statements are read. -/
def settle (l : Lexer) : Except Fault Lexer :=
  if l.stack.top.region.holdsStatements then do
    let (tape, lookback) ← skipLayout l.stack.top.lookback l.tape
    let tape ← honourEndMarker tape
    return ⟨tape, l.stack.withLookback lookback⟩
  else .ok l

/-- What is missing at the end of the script. The number of constructs is cut off at the greatest
word. -/
def missing (s : Stack) : Except Fault Malformation :=
  match s.top.region with
  | .quoted _ => .ok .unterminatedString
  | .heredocBody _ => .ok .unterminatedHeredoc
  | _ => do
    let constructs ← depth s
    let around ← sub constructs 1
    return .unclosedContext (min around (offsets - 1))

/-- Reports a construct that is open at the end of the script, and gives the token that stands
for the end. -/
def finish (l : Lexer) : Except Fault (Token × Lexer) := do
  let constructs ← depth l.stack
  if 1 < constructs then
    let cause ← missing l.stack
    return (.bare l.pos .endOfInput, { l with tape := l.tape.noteAt l.pos cause })
  else return (.bare l.pos .endOfInput, l)

/-- Reads the token that begins at the reading offset, or the end of the script. The frame that a
token counts for is found by the depths of the stack in front of the token and behind it. -/
def step (l : Lexer) : Except Fault (Token × Lexer) := do
  match ← rest l.tape with
  | [] => finish l
  | b :: bytes =>
    let before ← depth l.stack
    let r ← read l.stack.top b bytes l.tape
    let stack ← commit r.shift r.token.kind l.stack
    let behind ← depth stack
    let _ ← sub (min before behind) 1
    return (r.token, ⟨r.tape, stack⟩)

/-- Reads the next token. -/
def next (l : Lexer) : Except Fault (Token × Lexer) := do
  let l ← settle l
  step l

/-! ### Counting has no fault -/

variable {source : List Byte} {l : Lexer} {t : Tape} {s : Stack} {shift : Shift} {kind : Kind}

theorem depth_eq (h : s.below.length < offsets) : depth s = .ok s.depth :=
  add_eq (Nat.lt_of_le_of_lt h (by decide))

theorem countBrace_eq {region : Region} (h : region.braces + 1 < offsets) :
    countBrace kind region = .ok (Frame.countBrace kind region) := by
  cases region with
  | interpolation braces =>
    have hbrace : add offsets braces 1 = .ok (braces + 1) := add_eq h
    cases kind with
    | punctuator p =>
      cases p with
      | leftBrace =>
        simp only [countBrace, hbrace]
        rfl
      | _ => rfl
    | _ => rfl
  | statements | quoted _ | heredocLine _ | heredocBody _ => rfl

theorem record_eq {f : Frame} (h : f.region.braces + 1 < offsets) :
    record kind f = .ok (f.record kind) := by
  rw [record, countBrace_eq h]
  rfl

theorem commit_eq (h : ∀ f ∈ s.frames, f.region.braces + 1 < offsets)
    (hopened : ∀ region ∈ shift.opened?, region.braces + 1 < offsets) :
    commit shift kind s = .ok (s.commit shift kind) := by
  obtain ⟨top, below⟩ := s
  have htop : record kind top = .ok (top.record kind) := record_eq (h top List.mem_cons_self)
  cases shift with
  | stay | push _ =>
    rw [commit, htop]
    rfl
  | pop =>
    cases below with
    | nil =>
      rw [commit, htop]
      rfl
    | cons f below =>
      have hf : record kind f = .ok (f.record kind) :=
        record_eq (h f (List.mem_cons_of_mem _ List.mem_cons_self))
      simp only [commit, hf]
      rfl
  | swap region =>
    have hregion : record kind (.enter region) = .ok ((Frame.enter region).record kind) :=
      record_eq (hopened region rfl)
    rw [commit, hregion]
    rfl

/-! ### A call has no fault -/

theorem skipLayout_eq (h : t.Fits) (l : Lookback) : skipLayout l t = .ok (t.skipLayout l) := by
  induction l, t using Tape.skipLayout.induct with
  | case1 l t hnone =>
    rw [skipLayout, isLineStart_eq, ok_bind, Tape.skipLayout_of_none hnone]
    split
    · rfl
    · rename_i hsome
      rw [hnone] at hsome
      cases hsome
  | case2 l t g hg ih =>
    rw [skipLayout, isLineStart_eq, ok_bind, Tape.skipLayout_of_some hg]
    split
    · rename_i hnone
      rw [hg] at hnone
      cases hnone
    · rename_i hsome
      rw [hg] at hsome
      cases hsome
      have heat := eat_eq h g.length
      split
      · rename_i herror
        rw [heat] at herror
        cases herror
      · rename_i hok
        rw [heat] at hok
        cases hok
        exact ih (h.advanceBy g.length)

theorem honourEndMarker_eq (t : Tape) : honourEndMarker t = .ok t.honourEndMarker := by
  rw [honourEndMarker, isLineStart_eq, ok_bind, rest_eq]
  rfl

theorem settle_eq (h : l.tape.Fits) : settle l = .ok l.settle := by
  rw [settle, Lexer.settle]
  split
  · rw [skipLayout_eq h, ok_bind]
    simp only [honourEndMarker_eq]
    rfl
  · rfl

theorem finish_eq (h : l.stack.below.length < offsets) : finish l = .ok l.finish := by
  have hdepth := depth_eq h
  have hmissing : missing l.stack = .ok (Lexer.missing l.stack) := by
    have hmin : min l.stack.below.length (offsets - 1) = l.stack.below.length := by omega
    have hsub : sub l.stack.depth 1 = .ok l.stack.below.length := sub_eq (Nat.le_add_left 1 _)
    cases hregion : l.stack.top.region with
    | quoted _ | heredocBody _ => simp only [missing, Lexer.missing, hregion]
    | statements | interpolation _ | heredocLine _ =>
      simp only [missing, Lexer.missing, hregion, hdepth, hsub, hmin, ok_bind]
      rfl
  rw [finish, hdepth, ok_bind, hmissing, Lexer.finish]
  show (if 1 < l.depth then _ else _) = _
  split <;> rfl

/-- **Reading a token or the end of the script has no fault of its own.** -/
theorem step_eq (h : l.Reads source) (hl : l.Bounded) (hsource : source.length < offsets) :
    step l = lift l.step := by
  have hpos : l.pos < offsets := Nat.lt_of_le_of_lt h.tape.pos_le hsource
  have hdepth := hl.depth
  rw [step, rest_eq, ok_bind, Lexer.step]
  cases hrest : l.tape.rest with
  | nil =>
    exact finish_eq (by omega)
  | cons b bytes =>
    simp only
    rw [depth_eq (by omega), ok_bind, read_eq (h.tape.fits hsource) hrest]
    cases hr : Lexer.read l.stack.top b bytes l.tape with
    | error e => rfl
    | ok r =>
      obtain ⟨hlt, hle⟩ := h.pos_of_read hrest hr
      have hnests := Lexer.nests_read hr
      have hcommit := l.stack.length_below_commit_le r.shift r.token.kind
      have hcounted : ∀ f ∈ l.stack.frames, f.region.braces + 1 < offsets := by
        intro f hf
        have hbraces := hl.braces f hf
        omega
      have hopened : ∀ region ∈ r.shift.opened?, region.braces + 1 < offsets := by
        intro region hregion
        rw [hnests.effect.braces_opened region hregion]
        decide
      have hone : ∀ s : Stack, 1 ≤ s.depth := fun s => Nat.le_add_left 1 s.below.length
      rw [lift_ok, ok_bind, commit_eq hcounted hopened, ok_bind, depth_eq (by omega), ok_bind,
        sub_eq (Nat.le_min.mpr ⟨hone _, hone _⟩)]
      rfl

/-- **A call has no fault of its own,** if the bytes of the script are fewer than the values of an
offset. -/
theorem next_eq (h : l.Reads source) (hl : l.Bounded) (hsource : source.length < offsets) :
    next l = lift l.next := by
  rw [next, settle_eq (h.tape.fits hsource)]
  exact step_eq h.settle.1 (hl.settle h) hsource

end Word

end ScriptLexer
