import ScriptLexer.Proofs.Lexer.Nesting
import ScriptLexer.Proofs.Lexer.Tiling
import ScriptLexer.Proofs.Lexer.Within

/-!
# One script behind another

If a script ends with a line, and its tokens with the token of that line's end, and if there is
nothing to report, then another script behind it is read as it is read alone: the tokens of both
together are those of the first, less its end, and those of the second, moved.

The first script is read within both as it is alone, since it is not cut off. What makes the second
be read as it is alone is that the lexer is as good as new in front of it: nothing is open, or it
would be reported at the end of the first script; the end of a line leaves nothing to look back to;
and a line begins there.

## Main definitions

* `Lexer.Sound` — what is known of a lexer between two calls
* `Lexer.AtLineEnd` — the lexer of a script is as good as new where the script ends

## Main results

* `Lexer.Sound.calls_within` — any number of calls answer alike within a larger script
* `Lexer.Sound.atLineEnd` — behind the token of the last line's end the lexer is as good as new
* `lexBytes_append` — scripts that follow one another are read one after the other
-/

namespace ScriptLexer

theorem Token.rebase_zero (token : Token) : token.rebase 0 = token := by
  obtain ⟨pos, kind, literal⟩ := token
  cases literal <;> simp [rebase, Span.rebase]

/-- A stack that holds no construct, and has nothing to look back to, is that of a new script. -/
theorem Stack.Holds.eq_base {s : Stack} (h : s.Holds []) (hfresh : s.top.lookback = .fresh) :
    s = .base := by
  obtain ⟨⟨region, lookback⟩, below⟩ := s
  obtain rfl : lookback = .fresh := hfresh
  obtain ⟨hregion, hbelow⟩ : region.construct? = none ∧ below = [] := by
    simpa [Holds, frames] using h
  obtain rfl := hbelow
  cases region with
  | statements => rfl
  | quoted _ | interpolation _ | heredocLine _ | heredocBody _ => cases hregion

namespace Lexer

variable {source front back : List Byte} {l l' : Lexer} {token eoi : Token} {tokens : List Token}
  {n : Nat}

/-! ### Between two calls -/

/-- What is known of the lexer of `source` between two calls. -/
structure Sound (source : List Byte) (l : Lexer) : Prop where
  reads : l.Reads source
  identified : l.Identified source
  holds : ∃ opened, l.stack.Holds opened

theorem sound_ofBytes (source : List Byte) : Sound source (ofBytes source) where
  reads := reads_ofBytes source
  identified := identified_ofBytes source
  holds := ⟨[], Stack.holds_base⟩

theorem Sound.of_next (h : Sound source l) (hnext : l.next = .ok (token, l')) :
    Sound source l' := by
  obtain ⟨opened, hopened⟩ := h.holds
  obtain ⟨token', m, hnext', hreads, ⟨opened', -, hopened'⟩, -⟩ :=
    exists_next_nested h.reads hopened
  rw [hnext] at hnext'
  cases hnext'
  exact ⟨hreads, h.reads.identified_next h.identified hnext, opened', hopened'⟩

theorem Sound.of_calls (h : Sound source l) (hcalls : calls next n l = .ok (tokens, l')) :
    Sound source l' :=
  calls_invariant (fun hm hnext => hm.of_next hnext) h hcalls

/-- A call that leaves nothing to report was made where nothing was. -/
theorem Sound.diagnostic_eq_none (h : Sound source l) (hnext : l.next = .ok (token, l'))
    (hnone : l'.diagnostic = none) : l.diagnostic = none := by
  have hmoves := h.reads.moves hnext
  refine Option.eq_none_iff_forall_ne_some.mpr fun d hd => ?_
  rw [hmoves.kept d hd] at hnone
  cases hnone

theorem Sound.diagnostic_of_calls (h : Sound source l)
    (hcalls : calls next n l = .ok (tokens, l')) (hnone : l'.diagnostic = none) :
    l.diagnostic = none := by
  induction n generalizing l tokens with
  | zero =>
    cases hcalls
    exact hnone
  | succ n ih =>
    obtain ⟨token, m, later, hnext, hlater, -⟩ := exists_of_calls_succ hcalls
    exact h.diagnostic_eq_none hnext (ih (h.of_next hnext) hlater)

/-- **Any number of calls answer alike within a larger script,** if nothing follows there, or if
what is left ends with a line and the calls neither come to its end nor report anything. -/
theorem Sound.calls_within (h : Sound source l) (hfront : Line.startsBehind front)
    (hcalls : calls next n l = .ok (tokens, l'))
    (huncut : back = [] ∨ Line.startsBehind l.tape.rest ∧ l'.diagnostic = none
      ∧ ∀ token ∈ tokens, token.kind ≠ .endOfInput) :
    calls next n (l.within front back)
      = .ok (tokens.map (·.rebase front.length), l'.within front back) := by
  induction n generalizing l tokens with
  | zero =>
    cases hcalls
    rfl
  | succ n ih =>
    obtain ⟨token, m, later, hnext, hlater, rfl⟩ := exists_of_calls_succ hcalls
    have hm := h.of_next hnext
    refine calls_cons (h.reads.next_within h.identified hfront hnext (huncut.imp_right ?_))
      (ih hm hlater (huncut.imp_right ?_))
    · rintro ⟨hlines, hnone, hkinds⟩
      exact ⟨hlines, hm.diagnostic_of_calls hlater hnone, hkinds token List.mem_cons_self⟩
    · rintro ⟨hlines, hnone, hkinds⟩
      exact ⟨h.reads.startsBehind_next hnext hlines, hnone,
        fun token ht => hkinds token (List.mem_cons_of_mem _ ht)⟩

/-! ### Where a script ends with a line -/

/-- The lexer of `source` has read all of it, and is as good as new. -/
structure AtLineEnd (source : List Byte) (l : Lexer) : Prop where
  stack : l.stack = .base
  rest : l.tape.rest = []
  beyond : l.tape.beyond = []
  diagnostic : l.diagnostic = none
  pos : l.pos = source.length
  lines : Line.startsBehind l.tape.past.toList

/-- The end of a line leaves nothing to look back to. -/
theorem lookback_newLine (s : Stack) (shift : Shift) :
    (s.commit shift .newLine).top.lookback = .fresh := by
  obtain ⟨top, below⟩ := s
  cases shift with
  | stay | push region | swap region => rfl
  | pop => cases below <;> rfl

theorem AtLineEnd.buffer_eq (h : AtLineEnd source l) : l.tape.buffer = l.tape.past.toList := by
  rw [Tape.buffer, h.rest, h.beyond, List.append_nil, List.append_nil]

theorem AtLineEnd.length_buffer (h : AtLineEnd source l) :
    l.tape.buffer.length = source.length := by
  rw [h.buffer_eq]
  exact h.pos

/-- Another script behind it is where a lexer that is as good as new begins. -/
theorem AtLineEnd.within_eq (h : AtLineEnd source l) (back : List Byte) :
    l.within [] back = (ofBytes back).within l.tape.buffer [] := by
  have hpast := h.buffer_eq
  obtain ⟨⟨past, rest, beyond, diagnostic⟩, stack⟩ := l
  obtain rfl : stack = .base := h.stack
  obtain rfl : rest = [] := h.rest
  obtain rfl : beyond = [] := h.beyond
  obtain rfl : diagnostic = none := h.diagnostic
  refine congrArg (Lexer.mk · _) (Tape.ext_parts ?_ (List.append_nil _).symm rfl rfl)
  rw [Tape.past_within, Tape.past_within, hpast]
  exact (List.append_nil _).symm

/-- Where nothing is left, there is nothing to skip. -/
theorem settle_of_rest_eq_nil (h : l.tape.rest = []) : l.settle = l := by
  by_cases hregion : l.stack.top.region.holdsStatements
  · have hnone : Gap.read? (l.tape.isLineStart l.tape.pos) l.tape.rest = none := by
      rw [h, Gap.read?_nil]
    have hmarker : Line.isEndMarker [] = false := by decide
    rw [settle_of_holdsStatements hregion, Tape.skipLayout_of_none hnone, Tape.honourEndMarker, h,
      hmarker, Bool.and_false]
    rfl
  · exact if_neg hregion

/-- **Where the end comes with nothing to report,** nothing is open, and the call does nothing. -/
theorem Sound.next_at_end (h : Sound source l) (hrest : l.tape.rest = [])
    (hnext : l.next = .ok (eoi, l')) (hnone : l'.diagnostic = none) :
    l.stack.Holds [] ∧ l' = l := by
  rw [next, settle_of_rest_eq_nil hrest, step, hrest] at hnext
  cases hnext
  obtain ⟨opened, hopened⟩ := h.holds
  have hdepth := depth_of_finish hnone
  have hlength : l.depth = opened.length + 1 := hopened.depth
  obtain rfl : opened = [] := List.length_eq_zero_iff.mp (by omega)
  exact ⟨hopened, if_neg (by omega)⟩

/-- **Behind the token of the last line's end the lexer is as good as new,** and the end of the
script leaves it so. -/
theorem Sound.atLineEnd {k : Lexer} {newLine : Token} (h : Sound source k)
    (hnext : k.next = .ok (newLine, l)) (hkind : newLine.kind = .newLine)
    (hpos : newLine.pos + 1 = source.length)
    (hbyte : source[newLine.pos]? = some Byte.newline)
    (hend : l.next = .ok (eoi, l')) (hnone : l'.diagnostic = none) :
    AtLineEnd source l ∧ l' = l := by
  have hl := h.of_next hnext
  have hread : l.pos = source.length := by
    have hmoves := h.reads.moves hnext
    have hlt := hmoves.advances (by rw [hkind]; exact Kind.noConfusion)
    have hle : l.pos ≤ source.length := hl.reads.tape.pos_le
    omega
  have hahead := hl.reads.tape.ahead
  rw [show l.tape.pos = _ from hread, List.drop_length, List.append_eq_nil_iff] at hahead
  obtain ⟨hrest, hbeyond⟩ := hahead
  obtain ⟨hholds, hsame⟩ := hl.next_at_end hrest hend hnone
  have hfresh : l.stack.top.lookback = .fresh := by
    rcases next_cases hnext with ⟨-, rfl, -⟩ | ⟨b, rest, r, -, -, rfl, rfl⟩
    · cases hkind
    · rw [hkind]
      exact lookback_newLine _ _
  refine ⟨⟨hholds.eq_base hfresh, hrest, hbeyond, hsame ▸ hnone, hread, ?_⟩, hsame⟩
  rw [Line.startsBehind, hl.reads.tape.last, show l.tape.pos = _ from hread, List.take_length,
    List.getLast?_eq_getElem?, ← hpos, Nat.add_sub_cancel, hbyte]
  rfl

/-- **The calls on both scripts** are those on the first, up to the end of its last line, and then
those on the second. -/
theorem AtLineEnd.calls_append {a b : List Byte} {k : Nat} {m : Lexer} {tokens' : List Token}
    (h : AtLineEnd a l) (hfirst : calls next n (ofBytes a) = .ok (tokens, l))
    (hkinds : ∀ token ∈ tokens, token.kind ≠ .endOfInput)
    (hsecond : calls next k (ofBytes b) = .ok (tokens', m)) :
    calls next (n + k) (ofBytes (a ++ b))
      = .ok (tokens ++ tokens'.map (·.rebase a.length), m.within l.tape.buffer []) := by
  have hlines : Line.startsBehind a := by
    have hlast := ((sound_ofBytes a).of_calls hfirst).reads.tape.last
    rw [show l.tape.pos = _ from h.pos, List.take_length] at hlast
    rw [Line.startsBehind, ← hlast]
    exact h.lines
  have hwithin : calls next n ((ofBytes a).within [] b) = .ok (tokens, l.within [] b) := by
    have hcalls : calls next n ((ofBytes a).within [] b)
        = .ok (tokens.map (Token.rebase 0), l.within [] b) :=
      (sound_ofBytes a).calls_within (by rfl) hfirst (.inr ⟨hlines, h.diagnostic, hkinds⟩)
    rwa [List.map_id'' Token.rebase_zero tokens] at hcalls
  have hbehind : Line.startsBehind l.tape.buffer := by
    rw [h.buffer_eq]
    exact h.lines
  rw [h.within_eq b] at hwithin
  rw [← h.length_buffer]
  exact Lexer.calls_append hwithin ((sound_ofBytes b).calls_within hbehind hsecond (.inl rfl))

end Lexer

/-! ### Divided scripts -/

variable {a b : List Byte} {la lb lexed : Lexed} {init : List Token} {newLine eoi : Token}

/-- **A divided script has the tokens that the calls answer with,** up to the first end of input. -/
theorem lexBytes_eq_ok_iff :
    lexBytes a = .ok lexed ↔ ∃ n init eoi l,
      Lexer.calls Lexer.next n (.ofBytes a) = .ok (init ++ [eoi], l)
        ∧ (∀ token ∈ init, token.kind ≠ .endOfInput) ∧ eoi.kind = .endOfInput
        ∧ lexed = ⟨init ++ [eoi], l.tape.buffer, l.diagnostic⟩ := by
  constructor
  · intro h
    obtain ⟨init, eoi, l, hrun, hcalls, -, hinit, heoi⟩ := Lexer.run_eq_calls a
    rw [lexBytes, hrun] at h
    cases h
    exact ⟨_, init, eoi, l, hcalls, hinit, heoi, rfl⟩
  · rintro ⟨n, init, eoi, l, hcalls, hinit, heoi, rfl⟩
    obtain rfl : init.length + 1 = n := by
      rw [← Lexer.length_of_calls hcalls, List.length_append, List.length_singleton]
    obtain ⟨m, hbefore, -⟩ := Lexer.exists_of_calls_append hcalls
    have hbudget := Nat.lt_succ_of_le (Lexer.length_le_of_calls hbefore hinit)
    have hrun : (Lexer.ofBytes a).run = .ok (init ++ [eoi], l) :=
      Lexer.runFor_of_calls hinit heoi hbudget hcalls
    rw [lexBytes, hrun]
    rfl

/-- **If a divided script ends with a line** and has nothing to report, the lexer is as good as new
behind the token of that line's end. -/
theorem exists_atLineEnd (ha : lexBytes a = .ok la) (hnone : la.diagnostic = none)
    (htokens : la.tokens = init ++ [newLine, eoi]) (hkind : newLine.kind = .newLine)
    (hpos : newLine.pos + 1 = a.length) (hbyte : a[newLine.pos]? = some Byte.newline) :
    ∃ n l, Lexer.calls Lexer.next n (.ofBytes a) = .ok (init ++ [newLine], l)
      ∧ (∀ token ∈ init ++ [newLine], token.kind ≠ .endOfInput) ∧ l.AtLineEnd a
      ∧ la = ⟨init ++ [newLine, eoi], l.tape.buffer, none⟩ := by
  obtain ⟨n, before, eoi', l, hcalls, hbefore, -, rfl⟩ := lexBytes_eq_ok_iff.mp ha
  have hsplit : before ++ [eoi'] = (init ++ [newLine]) ++ [eoi] := by
    rw [List.append_assoc]
    exact htokens
  obtain ⟨rfl, heoi⟩ := List.append_inj' hsplit rfl
  obtain rfl : eoi' = eoi := List.head_eq_of_cons_eq heoi
  obtain ⟨k, hlines, hlast⟩ := Lexer.exists_of_calls_append hcalls
  obtain ⟨k', hinit, hnewLine⟩ := Lexer.exists_of_calls_append hlines
  obtain ⟨hk, rfl⟩ := ((Lexer.sound_ofBytes a).of_calls hinit).atLineEnd
    (Lexer.call_of_calls_singleton hnewLine) hkind hpos hbyte
    (Lexer.call_of_calls_singleton hlast) hnone
  refine ⟨_, l, hlines, hbefore, hk, ?_⟩
  rw [hk.diagnostic, List.append_assoc]
  rfl

section Literals

variable {token : Token} {tokens tokens' : List Token} {diagnostic diagnostic' : Option Diagnostic}
  {buffer : List Byte}

theorem Lexed.literal?_append (h : ∀ s, token.literal = some s → s.stop ≤ buffer.length)
    (back : List Byte) :
    literal? token ⟨tokens, buffer ++ back, diagnostic⟩
      = literal? token ⟨tokens', buffer, diagnostic'⟩ := by
  rw [literal?, literal?]
  cases hs : token.literal with
  | none => rfl
  | some s => exact Span.slice?_append (h s hs) back

theorem Lexed.literal?_rebase (h : ∀ s, token.literal = some s → s.stop ≤ buffer.length)
    (front : List Byte) :
    literal? (token.rebase front.length) ⟨tokens, front ++ buffer, diagnostic⟩
      = literal? token ⟨tokens', buffer, diagnostic'⟩ := by
  rw [literal?, literal?, Token.rebase]
  cases hs : token.literal with
  | none => rfl
  | some s => simpa using Span.slice?_rebase (h s hs) front []

end Literals

/-- **Scripts that follow one another are read one after the other.** If the first has nothing to
report, and its last token but the end is that of the line feed it ends with, both together have the
tokens of the first, less its end, and then those of the second, moved, with the same literals; and
what is reported is what the second has to report. -/
theorem lexBytes_append (ha : lexBytes a = .ok la) (hb : lexBytes b = .ok lb)
    (hnone : la.diagnostic = none) (htokens : la.tokens = init ++ [newLine, eoi])
    (hkind : newLine.kind = .newLine) (hpos : newLine.pos + 1 = a.length)
    (hbyte : a[newLine.pos]? = some Byte.newline) :
    ∃ lexed, lexBytes (a ++ b) = .ok lexed
      ∧ lexed.tokens = init ++ [newLine] ++ lb.tokens.map (·.rebase a.length)
      ∧ lexed.buffer = la.buffer ++ lb.buffer
      ∧ lexed.diagnostic = lb.diagnostic.map (·.shift a.length)
      ∧ (∀ token ∈ init ++ [newLine], lexed.literal? token = la.literal? token)
      ∧ ∀ token ∈ lb.tokens, lexed.literal? (token.rebase a.length) = lb.literal? token := by
  obtain ⟨n, l, hlines, hbefore, hl, rfl⟩ := exists_atLineEnd ha hnone htokens hkind hpos hbyte
  obtain ⟨k, initb, eoib, m, hcallsb, hinitb, heoib, rfl⟩ := lexBytes_eq_ok_iff.mp hb
  have hbuffer := hl.length_buffer
  have hboth := hl.calls_append hlines hbefore hcallsb
  rw [List.map_append, ← List.append_assoc] at hboth
  have hkinds : ∀ token ∈ init ++ [newLine] ++ initb.map (·.rebase a.length),
      token.kind ≠ .endOfInput := by
    rw [List.forall_mem_append, List.forall_mem_map]
    exact ⟨hbefore, hinitb⟩
  have hlex := lexBytes_eq_ok_iff.mpr ⟨_, _, eoib.rebase a.length, _, hboth, hkinds,
    heoib, rfl⟩
  rw [Lexer.within, Tape.buffer_within] at hlex
  refine ⟨_, hlex, ?_, rfl, ?_, fun token ht => ?_, fun token ht => ?_⟩
  · rw [List.map_append, ← List.append_assoc]
    rfl
  · rw [← hbuffer]
    rfl
  · refine Lexed.literal?_append (fun s hs => ?_) m.tape.buffer
    rw [hbuffer, ← hl.pos]
    exact ((Lexer.reads_ofBytes a).literals_read hlines token ht s hs).2
  · rw [← hbuffer]
    refine Lexed.literal?_rebase (fun s hs => ?_) l.tape.buffer
    have hm := ((Lexer.sound_ofBytes b).of_calls hcallsb).reads.tape
    rw [hm.length_buffer]
    exact Nat.le_trans ((Lexer.reads_ofBytes b).literals_read hcallsb token ht s hs).2 hm.pos_le

/-- A line with a name, and a string behind it that is not closed. -/
theorem lexBytes_append_unterminated :
    ∃ lexed, lexBytes (Byte.ofString "a\n" ++ Byte.ofString "'b") = .ok lexed
      ∧ lexed.tokens = [⟨0, .localVariable, some ⟨0, 1⟩⟩, ⟨1, .newLine, none⟩,
        ⟨2, .illegal, some ⟨3, 4⟩⟩, ⟨4, .endOfInput, none⟩]
      ∧ lexed.diagnostic = some ⟨2, .unterminatedString⟩ := by
  have ha : lexBytes (Byte.ofString "a\n")
      = .ok ⟨[⟨0, .localVariable, some ⟨0, 1⟩⟩, ⟨1, .newLine, none⟩, ⟨2, .endOfInput, none⟩],
        Byte.ofString "a\n", none⟩ := by decide +kernel
  have hb : lexBytes (Byte.ofString "'b")
      = .ok ⟨[⟨0, .illegal, some ⟨1, 2⟩⟩, ⟨2, .endOfInput, none⟩],
        Byte.ofString "'b", some ⟨0, .unterminatedString⟩⟩ := by decide +kernel
  obtain ⟨lexed, hlexed, htokens, -, hdiagnostic, -⟩ := lexBytes_append ha hb rfl
    (show _ = [_] ++ [_, _] from rfl) rfl rfl rfl
  exact ⟨lexed, hlexed, htokens, hdiagnostic⟩

end ScriptLexer
