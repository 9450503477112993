import Mathlib.Data.List.Chain
import ScriptLexer.Proofs.Lexer.Calls
import ScriptLexer.Proofs.Lexer.Effect

/-!
# Constructs nest

A caller sees of the open constructs only how many there are, and the tokens that open and close
them. `openBehind` reads what is open from that alone: an opener puts its sort of construct in
front, a closer takes the front one away and has to be of its sort, and the depth moves by one with
either and does not move otherwise. That it never fails, on any script, is that tokens nest well.

It does not fail because what it computes is what the lexer's stack holds. Each frame but the lowest
is that of a construct, a heredoc's whether its line or its body is being read, and what a token
does to the frames is its `Effect`.

## Main definitions

* `Observation`, `Lexer.observe` — what a caller sees of a call
* `openBehind` — the open constructs, read from what was seen
* `Stack.Holds` — the frames of a stack are those of constructs

## Main results

* `Effect.nestsWell` — a token nests well among the constructs of the stack
* `Lexer.tokens_nest` — the tokens of a script do
-/

namespace ScriptLexer

/-! ### What a caller sees -/

/-- What a caller sees of a call. -/
structure Observation where
  token : Token
  /-- The number of open constructs when the call was made. -/
  before : Nat
  /-- The number of open constructs behind the call. -/
  depth : Nat
  /-- The reading offset behind the call. -/
  pos : Nat
  deriving DecidableEq, Repr

/-- Reads the next token, and notes what can be seen of it. -/
def Lexer.observe (l : Lexer) : Except Misuse (Observation × Lexer) := do
  let (token, l') ← l.next
  return (⟨token, l.depth, l'.depth, l'.pos⟩, l')

/-- The sorts of constructs that tokens open and close. -/
inductive Construct where
  | string
  | heredoc
  | interpolation
  deriving DecidableEq, Repr

namespace Observation

/-- The construct that the token opens. A segment of a string opens it if it raises the depth. -/
def opens? (o : Observation) : Option Construct :=
  match o.token.kind with
  | .insertBegin => some .interpolation
  | .heredocBegin => some .heredoc
  | .stringPart => if o.before < o.depth then some .string else none
  | _ => none

/-- The construct that the token closes. The end of a string closes it if it lowers the depth. -/
def closes? (o : Observation) : Option Construct :=
  match o.token.kind with
  | .insertEnd => some .interpolation
  | .heredocEnd => some .heredoc
  | .string => if o.depth < o.before then some .string else none
  | _ => none

/-- The open constructs behind the token, from the inside out, if the token nests well among those
that are open in front of it. -/
def behind (opened : List Construct) (o : Observation) : Option (List Construct) :=
  match o.opens?, o.closes? with
  | some c, _ => if o.depth = o.before + 1 then some (c :: opened) else none
  | none, some c =>
    if opened.head? = some c ∧ o.before = o.depth + 1 then some opened.tail else none
  | none, none => if o.depth = o.before then some opened else none

/-- What may follow a segment that is interrupted: an introducer, where the segment stopped. -/
def Precedes (o o' : Observation) : Prop :=
  o.token.kind.isPart →
    (o'.token.kind = .insertBegin ∨ o'.token.kind.isSigiled) ∧ o'.token.pos = o.pos

end Observation

/-- The open constructs behind all that was seen, if every token nests well. -/
def openBehind (observations : List Observation) : Option (List Construct) :=
  observations.foldlM Observation.behind []

theorem openBehind_snoc {observations : List Observation} {opened : List Construct}
    (h : openBehind observations = some opened) (o : Observation) :
    openBehind (observations ++ [o]) = o.behind opened := by
  rw [openBehind] at h
  simp [openBehind, h]

/-! ### What the stack holds -/

/-- The construct of a region, unless that is the script itself. -/
def Region.construct? : Region → Option Construct
  | statements => none
  | quoted _ => some .string
  | interpolation _ => some .interpolation
  | heredocLine _ | heredocBody _ => some .heredoc

namespace Stack

/-- The frames of a stack are those of the constructs `opened`, and the lowest is the script's. -/
def Holds (s : Stack) (opened : List Construct) : Prop :=
  s.frames.map (·.region.construct?) = opened.map some ++ [none]

variable {s : Stack} {opened : List Construct} {kind : Kind} {region : Region} {c : Construct}

theorem holds_base : base.Holds [] :=
  rfl

theorem construct?_record (kind : Kind) (f : Frame) :
    (f.record kind).region.construct? = f.region.construct? := by
  obtain ⟨region, lookback⟩ := f
  cases region with
  | interpolation braces =>
    simp only [Frame.record, Frame.countBrace]
    split <;> rfl
  | statements | quoted _ | heredocLine _ | heredocBody _ => rfl

/-- The depth is one more than the number of open constructs. -/
theorem Holds.depth (h : s.Holds opened) : s.depth = opened.length + 1 := by
  have hlength := congrArg List.length h
  simpa [frames, Stack.depth] using hlength

/-- If the innermost frame is that of a construct, it is the innermost construct. -/
theorem Holds.exists_cons (h : s.Holds opened) (htop : s.top.region.construct? = some c) :
    ∃ opened', opened = c :: opened' := by
  obtain ⟨top, below⟩ := s
  cases opened with
  | nil =>
    have hhead : top.region.construct? = none := by simpa [frames] using congrArg List.head? h
    rw [show top.region.construct? = some c from htop] at hhead
    cases hhead
  | cons c' opened =>
    have hhead : top.region.construct? = some c' := by simpa [frames] using congrArg List.head? h
    have hc : c' = c := Option.some.inj (hhead.symm.trans htop)
    exact ⟨opened, hc ▸ rfl⟩

theorem Holds.stay (h : s.Holds opened) (kind : Kind) : (s.commit .stay kind).Holds opened := by
  rw [Holds, frames, List.map_cons] at h ⊢
  rwa [← construct?_record kind s.top] at h

theorem Holds.push (h : s.Holds opened) (kind : Kind) (hregion : region.construct? = some c) :
    (s.commit (.push region) kind).Holds (c :: opened) := by
  have hstay := h.stay kind
  rw [Holds] at hstay ⊢
  rw [List.map_cons, List.cons_append, ← hstay, ← hregion]
  rfl

theorem Holds.pop (h : s.Holds (c :: opened)) (kind : Kind) :
    (s.commit .pop kind).Holds opened := by
  obtain ⟨top, below⟩ := s
  rw [Holds, frames, List.map_cons, List.map_cons, List.cons_append, List.cons.injEq] at h
  cases below with
  | nil => simp at h
  | cons f below =>
    have hbelow := h.2
    rw [List.map_cons, ← construct?_record kind f] at hbelow
    exact hbelow

theorem Holds.swap (h : s.Holds (c :: opened)) (kind : Kind)
    (hregion : region.construct? = some c) :
    (s.commit (.swap region) kind).Holds (c :: opened) := by
  rw [Holds, frames, List.map_cons, List.map_cons, List.cons_append, List.cons.injEq] at h
  rw [Holds, frames, List.map_cons, List.map_cons, List.cons_append, List.cons.injEq]
  exact ⟨(construct?_record kind _).trans hregion, h.2⟩

end Stack

/-! ### What one token does -/

/-- What is seen of a call that commits a token to the stack. -/
def Stack.seen (s : Stack) (token : Token) (shift : Shift) (pos : Nat) : Observation :=
  ⟨token, s.depth, (s.commit shift token.kind).depth, pos⟩

/-- A token nests well among the constructs `opened` of the stack, and the stack holds those that
are open behind it. -/
def Stack.NestsWell (s : Stack) (opened : List Construct) (token : Token) (shift : Shift)
    (pos : Nat) : Prop :=
  ∃ opened', (s.seen token shift pos).behind opened = some opened'
    ∧ (s.commit shift token.kind).Holds opened'

namespace Stack

variable {s : Stack} {opened : List Construct} {token : Token} {region : Region} {c : Construct}
  {shift : Shift} {pos : Nat}

/-- A token that leaves the depth as it is opens and closes nothing, if its kind allows that. -/
theorem neither_of_depth_eq (hdepth : (s.commit shift token.kind).depth = s.depth)
    (hkind : token.kind.delimits = false ∨ token.kind = .string ∨ token.kind = .stringPart
      ∨ token.kind = .heredocPart) :
    (s.seen token shift pos).opens? = none ∧ (s.seen token shift pos).closes? = none := by
  simp only [Observation.opens?, Observation.closes?, seen, hdepth]
  rcases hkind with hkind | hkind | hkind | hkind
  · constructor <;> split <;> rename_i hk <;> simp [hk, Kind.delimits] at hkind ⊢
  all_goals simp [hkind]

theorem Holds.nestsWell_stay (hs : s.Holds opened)
    (hkind : token.kind.delimits = false ∨ token.kind = .string ∨ token.kind = .stringPart
      ∨ token.kind = .heredocPart) : s.NestsWell opened token .stay pos := by
  have hneither : (s.seen token .stay pos).opens? = none
      ∧ (s.seen token .stay pos).closes? = none := neither_of_depth_eq rfl hkind
  refine ⟨opened, ?_, hs.stay _⟩
  rw [Observation.behind, hneither.1, hneither.2]
  exact if_pos rfl

theorem Holds.nestsWell_push (hs : s.Holds opened) (hregion : region.construct? = some c)
    (hopens : (s.seen token (.push region) pos).opens? = some c) :
    s.NestsWell opened token (.push region) pos := by
  refine ⟨c :: opened, ?_, hs.push _ hregion⟩
  rw [Observation.behind, hopens]
  exact if_pos rfl

theorem Holds.nestsWell_pop (hs : s.Holds opened) (htop : s.top.region.construct? = some c)
    (hopens : (s.seen token .pop pos).opens? = none)
    (hcloses : (s.commit .pop token.kind).depth < s.depth →
      (s.seen token .pop pos).closes? = some c) : s.NestsWell opened token .pop pos := by
  obtain ⟨opened', rfl⟩ := hs.exists_cons htop
  have hdepth : s.depth = (s.commit .pop token.kind).depth + 1 := by
    rw [hs.depth, (hs.pop _).depth, List.length_cons]
  refine ⟨opened', ?_, hs.pop _⟩
  rw [Observation.behind, hopens, hcloses (by omega)]
  exact if_pos ⟨rfl, hdepth⟩

theorem Holds.nestsWell_swap (hs : s.Holds opened) (htop : s.top.region.construct? = some c)
    (hregion : region.construct? = some c) (hkind : token.kind.delimits = false) :
    s.NestsWell opened token (.swap region) pos := by
  obtain ⟨opened', rfl⟩ := hs.exists_cons htop
  have hneither : (s.seen token (.swap region) pos).opens? = none
      ∧ (s.seen token (.swap region) pos).closes? = none :=
    neither_of_depth_eq rfl (.inl hkind)
  refine ⟨c :: opened', ?_, hs.swap _ hregion⟩
  rw [Observation.behind, hneither.1, hneither.2]
  exact if_pos rfl

end Stack

/-- **A token nests well among the constructs of the stack,** whatever its effect is. -/
theorem Effect.nestsWell {s : Stack} {opened : List Construct} {token : Token} {shift : Shift}
    (h : Effect s.top.region token.kind shift) (hs : s.Holds opened) (pos : Nat) :
    s.NestsWell opened token shift pos := by
  obtain ⟨start, kind, literal⟩ := token
  generalize htop : s.top.region = region at h
  have hclosed : ∀ {c}, region.construct? = some c → s.top.region.construct? = some c :=
    fun hc => htop ▸ hc
  cases h with
  | inside hkind => exact hs.nestsWell_stay (.inl hkind)
  | wholeString _ => exact hs.nestsWell_stay (.inr (.inl rfl))
  | resumesString => exact hs.nestsWell_stay (.inr (.inr (.inl rfl)))
  | resumesBody _ => exact hs.nestsWell_stay (.inr (.inr (.inr rfl)))
  | opensString _ => exact hs.nestsWell_push rfl (if_pos (Nat.lt_succ_self _))
  | opensHeredoc _ => exact hs.nestsWell_push rfl rfl
  | opensInterpolation _ => exact hs.nestsWell_push rfl rfl
  | closesString => exact hs.nestsWell_pop (hclosed rfl) rfl fun hlt => if_pos hlt
  | closesBody => exact hs.nestsWell_pop (hclosed rfl) rfl fun _ => rfl
  | closesInterpolation => exact hs.nestsWell_pop (hclosed rfl) rfl fun _ => rfl
  | beginsBody => exact hs.nestsWell_swap (hclosed rfl) rfl rfl

/-! ### What one call does -/

namespace Lexer

variable {source : List Byte} {l l' : Lexer} {token : Token} {opened : List Construct}
  {observations : List Observation}

/-- A segment was interrupted here, and the introducer that did so is ahead. -/
def Interrupted (l : Lexer) : Prop :=
  l.stack.top.region.interpolates ∧ (Introducer.read? l.tape.rest).isSome

/-- Text is read from an introducer on, if one is ahead. -/
theorem introducer_of_read {f : Frame} {b : Byte} {rest : List Byte} {t : Tape} {r : Reading}
    (hregion : f.region.interpolates) (h : (Introducer.read? t.rest).isSome)
    (hread : read f b rest t = .ok r) :
    (r.token.kind = .insertBegin ∨ r.token.kind.isSigiled) ∧ r.token.pos = t.pos := by
  obtain ⟨region, lookback⟩ := f
  cases region with
  | quoted close =>
    obtain ⟨introducer, hintroducer, hread⟩ := exists_of_bind_eq_ok hread
    obtain ⟨r', rfl⟩ := Reading.exists_introducer h hintroducer
    cases hread
    exact Reading.token_introducer? hintroducer
  | heredocBody heredoc =>
    have hdecoded : heredoc.verbatim = false := by simpa [Region.interpolates] using hregion
    simp only [read, Reading.heredocBody, hdecoded] at hread
    obtain ⟨introducer, hintroducer, hread⟩ := exists_of_bind_eq_ok hread
    obtain ⟨r', rfl⟩ := Reading.exists_introducer h hintroducer
    cases hread
    exact Reading.token_introducer? hintroducer
  | statements | interpolation _ | heredocLine _ => cases hregion

/-- **What comes next where a segment was interrupted** is an introducer, without a gap. -/
theorem Interrupted.next_token (h : l.Interrupted) (hnext : l.next = .ok (token, l')) :
    (token.kind = .insertBegin ∨ token.kind.isSigiled) ∧ token.pos = l.pos := by
  obtain ⟨hregion, hsome⟩ := h
  have hsettle : l.settle = l := by
    refine if_neg ?_
    revert hregion
    cases l.stack.top.region <;> simp [Region.interpolates, Region.holdsStatements]
  rcases next_cases hnext with ⟨hrest, -⟩ | ⟨b, rest, r, -, hr, rfl, -⟩
  · rw [hsettle] at hrest
    rw [hrest] at hsome
    cases hsome
  · rw [hsettle] at hr
    exact introducer_of_read hregion hsome hr

/-- Behind a segment that is interrupted, the lexer stands where it was. -/
theorem interrupted_of_nests {s : Stack} {r : Reading} (h : r.Nests s.top.region)
    (hpart : r.token.kind.isPart) :
    Interrupted ⟨r.tape, s.commit r.shift r.token.kind⟩ := by
  refine ⟨?_, h.ahead hpart⟩
  have heffect := h.effect
  obtain ⟨⟨start, kind, literal⟩, shift, tape⟩ := r
  obtain ⟨⟨region, lookback⟩, below⟩ := s
  cases heffect with
  | inside hkind =>
    rw [Kind.isPart_eq_false hkind] at hpart
    cases hpart
  | opensString _ | resumesString => rfl
  | resumesBody hdecoded =>
    simp [Stack.commit, Frame.record, Frame.countBrace, Region.interpolates, hdecoded]
  | wholeString _ | closesString | opensHeredoc _ | beginsBody | closesBody | opensInterpolation _
  | closesInterpolation => cases hpart

/-- The end of the script is reported if a construct is open there. -/
theorem depth_of_finish (h : l.finish.2.diagnostic = none) : l.depth = 1 := by
  rw [finish] at h
  split at h
  · rw [diagnostic, Tape.noteAt_eq_keep, Tape.keep, Option.or_eq_none_iff] at h
    cases h.2
  · rename_i hdepth
    exact Nat.le_antisymm (Nat.not_lt.mp hdepth) (Nat.succ_pos _)

/-- **A call answers with a token that nests well** among the constructs that are open. -/
theorem exists_next_nested (h : l.Reads source) (hs : l.stack.Holds opened) :
    ∃ token l', l.next = .ok (token, l') ∧ l'.Reads source
      ∧ (∃ opened', (Observation.mk token l.depth l'.depth l'.pos).behind opened = some opened'
        ∧ l'.stack.Holds opened')
      ∧ (token.kind.isPart → l'.Interrupted)
      ∧ (token.kind = .endOfInput → l'.diagnostic = none → l'.depth = 1) := by
  obtain ⟨token, l', hnext, hmoves⟩ := exists_next h
  obtain ⟨lookback, hstack⟩ := exists_settle_stack l
  have hsettled : l.settle.stack.Holds opened := hstack ▸ hs
  have hdepth : l.settle.stack.depth = l.depth := hstack ▸ rfl
  refine ⟨token, l', hnext, hmoves.reads, ?_⟩
  rcases next_cases hnext with ⟨-, rfl, rfl⟩ | ⟨b, rest, r, hrest, hr, rfl, rfl⟩
  · have hsame : l.settle.finish.2.depth = l.depth := by
      rw [depth, finish_stack, hdepth]
    refine ⟨⟨opened, if_pos hsame, ?_⟩, (fun hpart => by cases hpart), fun _ hnone => ?_⟩
    · rwa [finish_stack]
    · rw [hsame, ← hdepth]
      exact depth_of_finish hnone
  · have hnests := nests_read hr
    refine ⟨?_, interrupted_of_nests hnests, fun hkind => ?_⟩
    · rw [← hdepth]
      exact hnests.effect.nestsWell hsettled _
    · obtain ⟨r', n, hr', -, hlawful⟩ := exists_read hrest (h.settle.1.named _ List.mem_cons_self)
      rw [hr] at hr'
      cases hr'
      exact absurd hkind hlawful.kind.2

/-! ### What any number of calls do -/

/-- What is known behind a number of calls. -/
structure Nested (source : List Byte) (observations : List Observation) (l : Lexer) : Prop where
  reads : l.Reads source
  holds : ∃ opened, openBehind observations = some opened ∧ l.stack.Holds opened
  follows : observations.IsChain Observation.Precedes
  /-- What was seen last tells where the lexer stands. -/
  last : ∀ o ∈ observations.getLast?, o.pos = l.pos ∧ (o.token.kind.isPart → l.Interrupted)
    ∧ (o.token.kind = .endOfInput → l.diagnostic = none → l.depth = 1)

theorem nested_ofBytes (source : List Byte) : Nested source [] (ofBytes source) where
  reads := reads_ofBytes source
  holds := ⟨[], rfl, Stack.holds_base⟩
  follows := List.isChain_nil
  last o ho := by cases ho

theorem Nested.step (h : Nested source observations l) :
    ∃ o l', l.observe = .ok (o, l') ∧ Nested source (observations ++ [o]) l' := by
  obtain ⟨opened, hopened, hholds⟩ := h.holds
  obtain ⟨token, l', hnext, hreads, hbehind, hpart, hend⟩ := exists_next_nested h.reads hholds
  refine ⟨⟨token, l.depth, l'.depth, l'.pos⟩, l', by rw [observe, hnext]; rfl, ?_⟩
  constructor
  · exact hreads
  · rwa [openBehind_snoc hopened]
  · rw [List.isChain_append]
    refine ⟨h.follows, List.isChain_singleton _, fun o ho o' ho' ho'' => ?_⟩
    cases ho'
    obtain ⟨hpos, hinterrupted, -⟩ := h.last o ho
    rw [hpos]
    exact (hinterrupted ho'').next_token hnext
  · intro o ho
    rw [List.getLast?_concat] at ho
    cases ho
    exact ⟨rfl, hpart, hend⟩

/-- **Tokens nest.** Whatever a script is, every token of every run of calls nests well among the
constructs that are open in front of it; the depth is one more than their number; a segment that is
interrupted is followed by the introducer that did so, without a gap; and if the end is reached with
nothing to report, nothing is open. -/
theorem tokens_nest (source : List Byte) (n : Nat) :
    ∃ observations l opened, calls observe n (ofBytes source) = .ok (observations, l)
      ∧ openBehind observations = some opened
      ∧ l.depth = opened.length + 1
      ∧ observations.IsChain Observation.Precedes
      ∧ ∀ o ∈ observations.getLast?, o.token.kind = .endOfInput → l.diagnostic = none →
        opened = [] ∧ l.depth = 1 := by
  obtain ⟨observations, l, hcalls, hnested⟩ :=
    calls_induction (nested_ofBytes source) Nested.step n
  obtain ⟨opened, hopened, hholds⟩ := hnested.holds
  have hdepth : l.depth = opened.length + 1 := hholds.depth
  refine ⟨observations, l, opened, hcalls, hopened, hdepth, hnested.follows, ?_⟩
  intro o ho hkind hnone
  have hone := (hnested.last o ho).2.2 hkind hnone
  exact ⟨List.length_eq_zero_iff.mp (by omega), hone⟩

end Lexer

end ScriptLexer
