import ScriptLexer.Proofs.Lexeme.SameLine
import ScriptLexer.Proofs.Lexer.Settle

/-!
# A script within a larger one

`t.within front back` is the tape `t` as it is if its script is a part of a larger one: the bytes
`front` have been read in front of it, and the bytes `back` follow where it ends. What moves a tape
onward moves it alike there, as long as it reads no byte of `back`.

Lines are the one thing that could be seen through the seam in front. So `front` has to end with a
line, or be empty.

## Main definitions

* `Tape.within` — the tape of a part of a larger script

## Main results

* `Tape.isLineStart_within`, `Tape.advanceBy_within`, `Tape.transcriptOf_within` — what is done to
  the tape of a part is done to it within the whole
-/

namespace ScriptLexer

theorem Line.startsBehind_append {front : List Byte} (h : startsBehind front) (bytes : List Byte) :
    startsBehind (front ++ bytes) = startsBehind bytes := by
  rw [startsBehind, List.getLast?_append]
  cases hlast : bytes.getLast? with
  | none =>
    rw [startsBehind, hlast]
    exact h
  | some b =>
    rw [startsBehind, hlast]
    rfl

/-- The span as it lies behind `n` more bytes. -/
def Span.rebase (n : Nat) (s : Span) : Span :=
  ⟨n + s.start, n + s.stop⟩

theorem Span.between_rebase (n start stop : Nat) :
    between (n + start) (n + stop) = (between start stop).map (·.rebase n) := by
  rw [between, between]
  by_cases h : start ≤ stop
  · rw [if_pos h, if_pos (Nat.add_le_add_left h n)]
    rfl
  · rw [if_neg h, if_neg (by omega)]
    rfl

/-- What lies under a span lies there behind more bytes, and whatever follows. -/
theorem Span.slice?_rebase {α : Type} {s : Span} {bytes : List α} (h : s.stop ≤ bytes.length)
    (front back : List α) :
    (s.rebase front.length).slice? (front ++ bytes ++ back) = s.slice? bytes := by
  rw [slice?, slice?, rebase, length, length]
  simp only [List.length_append, Nat.add_sub_add_left]
  by_cases hle : s.start ≤ s.stop
  · rw [if_pos ⟨Nat.add_le_add_left hle _, by omega⟩, if_pos ⟨hle, h⟩, List.append_assoc,
      List.drop_append, List.drop_of_length_le (Nat.le_add_right _ _), List.nil_append,
      Nat.add_sub_cancel_left, List.drop_append_of_le_length (Nat.le_trans hle h),
      List.take_append_of_le_length (by rw [List.length_drop]; omega)]
  · rw [if_neg (by omega), if_neg (by omega)]

theorem Span.slice?_append {α : Type} {s : Span} {bytes : List α} (h : s.stop ≤ bytes.length)
    (back : List α) : s.slice? (bytes ++ back) = s.slice? bytes := by
  simpa [rebase] using slice?_rebase h [] back

namespace Tape

/-- The tape of a part of a larger script: `front` is in front of it, and `back` behind it. -/
def within (front back : List Byte) (t : Tape) : Tape :=
  ⟨(front ++ t.past.toList).toArray, t.rest ++ back, t.beyond,
    t.diagnostic.map (·.shift front.length)⟩

variable (front back : List Byte) (t : Tape) {n : Nat}

theorem past_within : (t.within front back).past.toList = front ++ t.past.toList :=
  rfl

theorem rest_within : (t.within front back).rest = t.rest ++ back :=
  rfl

theorem pos_within : (t.within front back).pos = front.length + t.pos := by
  rw [pos, ← Array.length_toList, past_within, List.length_append, Array.length_toList]
  rfl

theorem buffer_within : (t.within front []).buffer = front ++ t.buffer := by
  rw [buffer, past_within, rest_within, List.append_nil, buffer, List.append_assoc,
    List.append_assoc, List.append_assoc]
  rfl

theorem isLineStart_within (hfront : Line.startsBehind front) :
    (t.within front back).isLineStart (t.within front back).pos = t.isLineStart t.pos := by
  rw [isLineStart_pos, isLineStart_pos, past_within, Line.startsBehind_append hfront]

theorem advanceBy_within (hn : n ≤ t.rest.length) :
    (t.within front back).advanceBy n = (t.advanceBy n).within front back := by
  refine ext_parts ?_ (List.drop_append_of_le_length hn) rfl rfl
  rw [advanceBy, Array.toList_appendList, rest_within, List.take_append_of_le_length hn,
    past_within, past_within, advanceBy, Array.toList_appendList, List.append_assoc]

theorem keep_within (d : Option Diagnostic) :
    (t.within front back).keep (d.map (·.shift front.length)) = (t.keep d).within front back := by
  refine ext_parts rfl rfl rfl ?_
  exact Option.map_or.symm

theorem noteAt_within (p : Nat) (cause : Malformation) :
    (t.within front back).noteAt (front.length + p) cause
      = (t.noteAt p cause).within front back := by
  rw [noteAt_eq_keep, noteAt_eq_keep, ← keep_within]
  rfl

theorem overwrite_within (text : List Byte) (hn : n ≤ t.rest.length) :
    (t.within front back).overwrite text n = (t.overwrite text n).within front back := by
  refine ext_parts ?_ (List.drop_append_of_le_length hn) rfl rfl
  rw [past_overwrite, past_within, rest_within, past_within, past_overwrite,
    List.take_append_of_le_length hn, List.append_assoc]

/-- **A passage leaves the same behind within a larger script.** -/
theorem transcriptOf_within {p : Passage} (h : t.Ahead p) :
    ((t.within front back).transcriptOf [] 0 p).tape
      = ((t.transcriptOf [] 0 p).tape).within front back := by
  have hn : 0 + p.length ≤ (t.keep (p.fault.map (·.shift (t.pos + 0)))).rest.length := by
    rw [Nat.zero_add]
    exact h.length_le
  have hfault : p.fault.map (·.shift ((t.within front back).pos + 0))
      = (p.fault.map (·.shift (t.pos + 0))).map (·.shift front.length) := by
    rw [Option.map_map, pos_within]
    exact congrArg (p.fault.map ·) (funext fun d => by simp [Diagnostic.shift, Nat.add_assoc])
  rw [transcriptOf, transcriptOf, hfault, keep_within, overwrite_within front back _ _ hn]

/-- What has been read is sliced alike within a larger script. -/
theorem slice_within {s : Span} {bytes : List Byte} (hs : s.stop ≤ t.pos)
    (h : t.slice s = .ok bytes) :
    (t.within front back).slice (s.rebase front.length) = .ok bytes := by
  have hpast : s.stop ≤ t.past.toList.length := by rwa [Array.length_toList]
  rw [slice_eq_ok_iff, buffer, List.append_assoc, Span.slice?_append hpast] at h
  rw [slice_eq_ok_iff, buffer, List.append_assoc, past_within, Span.slice?_rebase hpast, h]

end Tape

end ScriptLexer
