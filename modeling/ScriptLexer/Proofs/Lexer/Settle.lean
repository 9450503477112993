import ScriptLexer.Lexer.Next
import ScriptLexer.Proofs.Lexeme.Layout
import ScriptLexer.Proofs.Tape.Onward

/-!
# Coming to the next token

What is unread on a tape is always as the script has it, and so is the byte in front of the reading
offset. `Tape.Reads source t` says so, and with it that bytes past a forced end are those of an end
marker. Every move onward keeps it.

From there the way to the next token is described in terms of the script: layout is skipped, as
`Layout` writes it out, and the end marker is honoured where the script has one on a line of its
own.

## Main definitions

* `Tape.Reads` — the tape reads a script
* `EndMarkerAt` — the script has an end marker at an offset

## Main results

* `Tape.Reads.onward` — every move onward reads the same script
* `Tape.exists_skipLayout` — what is skipped is layout
* `Tape.Reads.atEndMarker` — the script ends at its end marker
-/

namespace ScriptLexer

/-- Whether an end marker stands at offset `p` of a script, alone on its line. -/
def EndMarkerAt (source : List Byte) (p : Nat) : Prop :=
  Line.startsBehind (source.take p)
    ∧ ∃ behind, source.drop p = Line.endMarker ++ behind ∧ Line.endsHere behind

namespace Tape

/-- `t` reads the script `source`: what is not read is as the script has it, and so is the last byte
that is; and only an end marker makes the script end early. -/
structure Reads (source : List Byte) (t : Tape) : Prop where
  pos_le : t.pos ≤ source.length
  ahead : t.rest ++ t.beyond = source.drop t.pos
  last : t.past.toList.getLast? = (source.take t.pos).getLast?
  ended : t.beyond ≠ [] → t.rest = [] ∧ EndMarkerAt source t.pos

variable {source : List Byte} {t t' : Tape} {n : Nat} {s : Span}

namespace Reads

theorem ofBytes (source : List Byte) : Reads source (.ofBytes source) where
  pos_le := Nat.zero_le _
  ahead := List.append_nil source
  last := rfl
  ended h := absurd rfl h

theorem length_rest_le (h : Reads source t) : t.pos + t.rest.length ≤ source.length := by
  have hlength := congrArg List.length h.ahead
  have hpos := h.pos_le
  rw [List.length_append, List.length_drop] at hlength
  omega

theorem length_buffer (h : Reads source t) : t.buffer.length = source.length := by
  have hlength := congrArg List.length h.ahead
  have hpos := h.pos_le
  rw [List.length_append, List.length_drop] at hlength
  rw [Tape.length_buffer, size, ← pos]
  omega

/-- What is not read is as the script has it. -/
theorem buffer_eq (h : Reads source t) {i : Nat} (hi : t.pos ≤ i) :
    t.buffer[i]? = source[i]? := by
  have hpast : t.past.toList.length = t.pos := Array.length_toList
  rw [buffer, List.append_assoc, List.getElem?_append_right (by rw [hpast]; exact hi), hpast,
    h.ahead, List.getElem?_drop, Nat.add_sub_cancel' hi]

/-- The bytes that a move reads are the script's. -/
theorem take_rest (h : Reads source t) (hn : n ≤ t.rest.length) :
    t.rest.take n = (source.drop t.pos).take n := by
  rw [← h.ahead, List.take_append_of_le_length hn]

/-- **Every move onward reads the same script.** -/
theorem onward (h : Reads source t) (hmove : Onward n s t t') : Reads source t' where
  pos_le := by
    have hle := h.length_rest_le
    have hn := hmove.le
    rw [hmove.pos]
    omega
  ahead := by
    rw [hmove.rest, hmove.beyond, hmove.pos, ← List.drop_drop, ← h.ahead,
      List.drop_append_of_le_length hmove.le]
  last := by
    rw [hmove.last, hmove.pos, List.take_add, List.getLast?_append, List.getLast?_append, h.last,
      h.take_rest hmove.le]
  ended hbeyond := by
    rw [hmove.beyond] at hbeyond
    obtain ⟨hrest, hmarker⟩ := h.ended hbeyond
    have hn : n = 0 := by simpa [hrest] using hmove.le
    rw [hmove.rest, hmove.pos, hrest, hn]
    exact ⟨rfl, hmarker⟩

end Reads

/-! ### Layout -/

/-- Whether a line begins at the reading offset is decided by the byte in front of it. -/
theorem isLineStart_pos (t : Tape) : t.isLineStart t.pos = Line.startsBehind t.past.toList := by
  have hpast : t.past.toList.length = t.pos := Array.length_toList
  rcases Nat.eq_zero_or_pos t.pos with hzero | hpos
  · rw [hzero, List.length_eq_zero_iff] at hpast
    rw [isLineStart, hzero, Line.startsBehind, hpast]
    rfl
  · have hlast : t.byteAt? (t.pos - 1) = t.past.toList.getLast? := by
      rw [byteAt?, if_pos (show t.pos - 1 < t.past.size by rw [← pos]; omega),
        List.getLast?_eq_getElem?, hpast, Array.getElem?_toList]
    have hb := List.getLast?_eq_some_getLast (List.ne_nil_of_length_pos (hpast ▸ hpos))
    have hne : (t.pos == 0) = false := by simpa using Nat.ne_of_gt hpos
    rw [isLineStart, Line.startsBehind, hlast, hb, hne]
    simp

theorem skipLayout_of_none {l : Lookback} (h : Gap.read? (t.isLineStart t.pos) t.rest = none) :
    t.skipLayout l = (t, l) := by
  rw [skipLayout]
  split
  · rfl
  · rename_i hsome
    rw [h] at hsome
    cases hsome

theorem skipLayout_of_some {l : Lookback} {g : Gap}
    (h : Gap.read? (t.isLineStart t.pos) t.rest = some g) :
    t.skipLayout l = (t.advanceBy g.length).skipLayout (l.afterGap g.separates) := by
  rw [skipLayout]
  split
  · rename_i hnone
    rw [h] at hnone
    cases hnone
  · rename_i g' hsome
    rw [h] at hsome
    cases hsome
    rfl

/-- **What is skipped is layout.** -/
theorem exists_skipLayout (l : Lookback) (t : Tape) :
    ∃ n, (∀ s, Onward n s t (t.skipLayout l).1)
      ∧ Layout t.past.toList (t.rest.take n) (t.rest.drop n) := by
  induction l, t using skipLayout.induct with
  | case1 l t hnone =>
    rw [skipLayout_of_none hnone]
    exact ⟨0, fun s => .refl s t, .nil⟩
  | case2 l t g hg ih =>
    obtain ⟨n, hmove, hlayout⟩ := ih
    have hle := Gap.length_le_of_read? hg
    have hpiece : Layout t.past.toList (t.rest.take g.length) (t.rest.drop g.length) := by
      refine layout_of_read? hg fun hstart => ?_
      rwa [isLineStart_pos] at hstart
    rw [skipLayout_of_some hg]
    refine ⟨g.length + n, fun s => (onward_advanceBy s hle).trans (hmove s), ?_⟩
    rw [rest_advanceBy, List.drop_drop] at hlayout
    rw [List.take_add]
    refine .append ?_ ?_
    · rwa [← List.drop_drop, List.take_append_drop]
    · rwa [advanceBy, Array.toList_appendList] at hlayout

/-! ### The end marker -/

theorem terminateAt_pos (t : Tape) :
    t.terminateAt t.pos = { t with rest := [], beyond := t.rest ++ t.beyond } := by
  have hpast : t.past.toList.length = t.pos := Array.length_toList
  refine ext_parts ?_ rfl ?_ rfl
  · simp [terminateAt, buffer, ← hpast]
  · simp [terminateAt, buffer, ← hpast]

/-- **The script ends at its end marker,** and nothing else changes there. -/
theorem Reads.atEndMarker (h : Reads source t) :
    Reads source t.honourEndMarker ∧ t.honourEndMarker.pos = t.pos
      ∧ t.honourEndMarker.buffer = t.buffer ∧ t.honourEndMarker.diagnostic = t.diagnostic := by
  rw [honourEndMarker]
  split
  · rename_i hmarker
    rw [Bool.and_eq_true, isLineStart_pos, Line.startsBehind, h.last] at hmarker
    obtain ⟨hstart, hmarker⟩ := hmarker
    rw [terminateAt_pos]
    obtain ⟨behind, hbehind, hends⟩ := (Option.any_eq_true ..).mp hmarker
    have hrest := Line.eq_append_of_behind? hbehind
    -- The marker is unread, so nothing was past a forced end before.
    have hbeyond : t.beyond = [] := by
      by_contra hne
      rw [(h.ended hne).1] at hrest
      cases hrest
    have hsource : source.drop t.pos = Line.endMarker ++ behind := by
      rw [← h.ahead, hbeyond, List.append_nil, hrest]
    refine ⟨⟨h.pos_le, h.ahead, h.last, fun _ => ⟨rfl, hstart, behind, hsource, hends⟩⟩, rfl, ?_,
      rfl⟩
    simp [buffer]
  · exact ⟨h, rfl, rfl, rfl⟩

end Tape

end ScriptLexer
