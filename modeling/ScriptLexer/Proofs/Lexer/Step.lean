import ScriptLexer.Proofs.Lexer.Reading
import ScriptLexer.Proofs.Lexer.Settle

/-!
# What one call does

Between two calls the lexer of a script keeps an invariant, `Lexer.Reads`: its tape reads the
script, and every open heredoc has been named. One call of `Lexer.next` always answers, keeps the
invariant, and does what `Lexer.Moves` says: it skips layout, reads a token behind it, and rewrites
bytes under the literal of that token only. Whatever is said about runs follows from this by
induction on the calls.

## Main definitions

* `Lexer.Reads` — the invariant
* `Lexer.Moves` — what a call does that answers with a token

## Main results

* `Lexer.exists_next`, `Lexer.Reads.moves` — every call answers, and does no more than that
-/

namespace ScriptLexer

/-! ### Frames -/

/-- All frames of a stack, from the inside out. -/
def Stack.frames (s : Stack) : List Frame :=
  s.top :: s.below

/-- The region that a token opens, if it opens one. -/
def Shift.opened? : Shift → Option Region
  | push region | swap region => some region
  | stay | pop => none

/-- **What holds of the regions of a stack is carried over a token,** if it is carried over the
counting of braces, and holds of what the token opens. -/
theorem Stack.forall_commit {P Q : Region → Prop} {kind : Kind}
    (hkeep : ∀ region, P region → Q region)
    (hcount : ∀ region, P region → Q (Frame.countBrace kind region)) {s : Stack} {shift : Shift}
    (h : ∀ f ∈ s.frames, P f.region) (hopened : ∀ region ∈ shift.opened?, P region) :
    ∀ f ∈ (s.commit shift kind).frames, Q f.region := by
  obtain ⟨top, below⟩ := s
  have hrecord : ∀ f : Frame, P f.region → Q (f.record kind).region :=
    fun f hf => hcount f.region hf
  have htop : P top.region := h top List.mem_cons_self
  have hbelow : ∀ f ∈ below, P f.region := fun f hf => h f (List.mem_cons_of_mem _ hf)
  have hkept : ∀ f ∈ below, Q f.region := fun f hf => hkeep f.region (hbelow f hf)
  cases shift with
  | stay => exact List.forall_mem_cons.mpr ⟨hrecord top htop, hkept⟩
  | push region =>
    refine List.forall_mem_cons.mpr ⟨hkeep region (hopened region rfl), ?_⟩
    exact List.forall_mem_cons.mpr ⟨hrecord top htop, hkept⟩
  | pop =>
    cases below with
    | nil => exact List.forall_mem_cons.mpr ⟨hrecord top htop, hkept⟩
    | cons f below =>
      rw [List.forall_mem_cons] at hbelow hkept
      exact List.forall_mem_cons.mpr ⟨hrecord f hbelow.1, hkept.2⟩
  | swap region =>
    exact List.forall_mem_cons.mpr ⟨hrecord (.enter region) (hopened region rfl), hkept⟩

theorem Region.named_countBrace {pos : Nat} {region : Region} (kind : Kind)
    (h : region.Named pos) : (Frame.countBrace kind region).Named pos := by
  cases region with
  | interpolation braces =>
    simp only [Frame.countBrace]
    split <;> trivial
  | statements | quoted _ | heredocLine _ | heredocBody _ => exact h

/-- **A token leaves every open heredoc named,** if what it opens is. -/
theorem Stack.named_commit {pos : Nat} {s : Stack} {shift : Shift} (kind : Kind)
    (h : ∀ f ∈ s.frames, f.region.Named pos)
    (hopened : shift.Named pos) :
    ∀ f ∈ (s.commit shift kind).frames, f.region.Named pos := by
  refine forall_commit (P := Region.Named pos) (fun _ h => h)
    (fun _ h => Region.named_countBrace kind h) h ?_
  intro region hregion
  cases shift <;> cases hregion <;> exact hopened

/-! ### The invariant -/

namespace Lexer

/-- What holds of the lexer of `source` between two calls. -/
structure Reads (source : List Byte) (l : Lexer) : Prop where
  tape : l.tape.Reads source
  named : ∀ f ∈ l.stack.frames, f.region.Named l.pos

/-- What a call does that answers with `token` and leaves `l'` behind. -/
structure Moves (source : List Byte) (l : Lexer) (token : Token) (l' : Lexer) : Prop where
  reads : l'.Reads source
  kind : token.kind ≠ .continuation
  /-- Nothing but layout is left out in front of the token. -/
  begins : l.pos ≤ token.pos
  gap : LayoutBetween source l.pos token.pos
  /-- The token has bytes, unless it stands for the end. -/
  stops : token.pos ≤ l'.pos
  advances : token.kind ≠ .endOfInput → token.pos < l'.pos
  ends : token.kind = .endOfInput → token.pos = source.length ∨ EndMarkerAt source token.pos
  literal : ∀ s, token.literal = some s →
    token.pos ≤ s.start ∧ s.start ≤ s.stop ∧ s.stop ≤ l'.pos
  /-- Bytes outside the token's literal are as they were. -/
  frame : ∀ i, ¬ (token.rewritten.start ≤ i ∧ i < token.rewritten.stop) →
    l'.tape.buffer[i]? = l.tape.buffer[i]?
  /-- The first report is kept. -/
  kept : ∀ d, l.diagnostic = some d → l'.diagnostic = some d

variable {source : List Byte} {l : Lexer}

theorem reads_ofBytes (source : List Byte) : (ofBytes source).Reads source where
  tape := .ofBytes source
  named := List.forall_mem_singleton.mpr trivial

/-- What a tape skips is layout of its script. -/
theorem layoutBetween_of_onward {t : Tape} {n : Nat} (h : t.Reads source) (hn : n ≤ t.rest.length)
    (hlayout : Layout t.past.toList (t.rest.take n) (t.rest.drop n)) :
    LayoutBetween source t.pos (t.pos + n) := by
  rw [LayoutBetween, Nat.add_sub_cancel_left, ← h.take_rest hn, ← List.drop_drop, ← h.ahead,
    List.drop_append_of_le_length hn]
  by_cases hbeyond : t.beyond = []
  · rw [hbeyond, List.append_nil]
    exact hlayout.congr_before h.last
  · rw [(h.ended hbeyond).1, List.take_nil]
    exact .nil

/-- **Settling skips layout,** and nothing else. -/
theorem Reads.settle (h : l.Reads source) :
    l.settle.Reads source ∧ l.pos ≤ l.settle.pos ∧ LayoutBetween source l.pos l.settle.pos
      ∧ l.settle.tape.buffer = l.tape.buffer
      ∧ ∀ d, l.diagnostic = some d → l.settle.diagnostic = some d := by
  rw [Lexer.settle]
  split
  · obtain ⟨n, hmove, hlayout⟩ := Tape.exists_skipLayout l.stack.top.lookback l.tape
    generalize l.tape.skipLayout l.stack.top.lookback = skipped at hmove ⊢
    obtain ⟨tape, lookback⟩ := skipped
    have hmove : ∀ s, Tape.Onward n s l.tape tape := hmove
    have hmoved : tape.pos = l.pos + n := (hmove ⟨0, 0⟩).pos
    obtain ⟨hreads, hpos, hbuffer, hdiagnostic⟩ := (h.tape.onward (hmove ⟨0, 0⟩)).atEndMarker
    have hle : l.pos ≤ tape.honourEndMarker.pos := by omega
    refine ⟨⟨hreads, fun f hf => ?_⟩, hle, ?_, ?_, fun d hd => ?_⟩
    · rcases List.mem_cons.mp hf with rfl | hf
      · exact (h.named _ List.mem_cons_self).mono hle
      · exact (h.named f (List.mem_cons_of_mem _ hf)).mono hle
    · show LayoutBetween source l.pos tape.honourEndMarker.pos
      rw [hpos, hmoved]
      exact layoutBetween_of_onward h.tape (hmove ⟨0, 0⟩).le hlayout
    · show tape.honourEndMarker.buffer = l.tape.buffer
      rw [hbuffer]
      exact List.ext_getElem? fun i => (hmove ⟨0, 0⟩).frame i (by simp)
    · exact hdiagnostic.trans ((hmove ⟨0, 0⟩).kept d hd)
  · refine ⟨h, Nat.le_refl _, ?_, rfl, fun _ hd => hd⟩
    exact layoutBetween_of_onward h.tape (Nat.zero_le _) .nil

/-- The end of the script is reported where the lexer has settled. -/
theorem Reads.finish (h : l.Reads source) (hrest : l.tape.rest = []) :
    Moves source l l.finish.1 l.finish.2 := by
  have hmove : ∀ s, Tape.Onward 0 s l.tape l.finish.2.tape := by
    intro s
    rw [Lexer.finish]
    split
    · exact Tape.onward_noteAt _ _ s _
    · exact .refl s _
  have hpos : l.finish.2.pos = l.pos := (hmove ⟨0, 0⟩).pos
  have hstack : l.finish.2.stack = l.stack := by
    rw [Lexer.finish]
    split <;> rfl
  constructor
  · refine ⟨h.tape.onward (hmove ⟨0, 0⟩), ?_⟩
    rw [hstack, hpos]
    exact h.named
  · simp [Lexer.finish, Token.bare]
  · exact Nat.le_refl _
  · exact layoutBetween_of_onward h.tape (Nat.zero_le _) .nil
  · exact Nat.le_of_eq hpos.symm
  · exact fun hkind => absurd rfl hkind
  · intro _
    by_cases hbeyond : l.tape.beyond = []
    · have hahead := h.tape.ahead
      rw [hrest, hbeyond, List.append_nil, eq_comm, List.drop_eq_nil_iff] at hahead
      exact .inl (Nat.le_antisymm h.tape.pos_le hahead)
    · exact .inr (h.tape.ended hbeyond).2
  · intro s hs
    cases hs
  · exact fun i hi => (hmove _).frame i hi
  · exact (hmove ⟨0, 0⟩).kept

/-- A reading that is lawful moves the lexer as a call may do. -/
theorem Reads.commit (h : l.Reads source) {r : Reading} {n : Nat} (hn : 0 < n)
    (hlawful : r.Lawful l.pos n l.tape) :
    Moves source l r.token ⟨r.tape, l.stack.commit r.shift r.token.kind⟩ := by
  have hpos : r.tape.pos = l.pos + n := hlawful.onward.pos
  have hle : l.pos ≤ r.tape.pos := hpos ▸ Nat.le_add_right _ n
  have hlt : r.token.pos < r.tape.pos := by
    rw [hlawful.begins]
    omega
  constructor
  · refine ⟨h.tape.onward hlawful.onward, ?_⟩
    exact Stack.named_commit _ (fun f hf => (h.named f hf).mono hle) hlawful.opened
  · exact hlawful.kind.1
  · exact Nat.le_of_eq hlawful.begins.symm
  · rw [hlawful.begins]
    exact layoutBetween_of_onward h.tape (Nat.zero_le _) .nil
  · exact Nat.le_of_lt hlt
  · exact fun _ => hlt
  · exact fun hkind => absurd hkind hlawful.kind.2
  · intro s hs
    rw [hlawful.begins]
    exact hlawful.literal s hs
  · exact hlawful.onward.frame
  · exact hlawful.onward.kept

/-- **Every call answers,** and does what a call may do. -/
theorem exists_next (h : l.Reads source) :
    ∃ token l', l.next = .ok (token, l') ∧ Moves source l token l' := by
  obtain ⟨hsettled, hle, hgap, hbuffer, hkept⟩ := h.settle
  obtain ⟨token, l', hstep, hpos, hmoves⟩ : ∃ token l', l.settle.step = .ok (token, l')
      ∧ token.pos = l.settle.pos ∧ Moves source l.settle token l' := by
    rw [step]
    split
    · rename_i hrest
      exact ⟨_, _, rfl, rfl, hsettled.finish hrest⟩
    · rename_i b rest hrest
      obtain ⟨r, n, hr, hn, hlawful⟩ := exists_read hrest (hsettled.named _ List.mem_cons_self)
      rw [hr]
      exact ⟨_, _, rfl, hlawful.begins, hsettled.commit hn hlawful⟩
  refine ⟨token, l', hstep, ?_⟩
  constructor
  · exact hmoves.reads
  · exact hmoves.kind
  · exact hpos ▸ hle
  · exact hpos ▸ hgap
  · exact hmoves.stops
  · exact hmoves.advances
  · exact hmoves.ends
  · exact hmoves.literal
  · exact hbuffer ▸ hmoves.frame
  · exact fun d hd => hmoves.kept d (hkept d hd)

/-- What has been answered was a call that may be made. -/
theorem Reads.moves (h : l.Reads source) (hnext : l.next = .ok (token, l')) :
    Moves source l token l' := by
  obtain ⟨token', m, hnext', hmoves⟩ := exists_next h
  rw [hnext] at hnext'
  cases hnext'
  exact hmoves

end Lexer

end ScriptLexer
