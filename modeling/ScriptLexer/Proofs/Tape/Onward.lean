import ScriptLexer.Proofs.Text.Passage

/-!
# Moving onward

Reading a token moves a tape onward by a number of bytes, and on the way it may rewrite bytes under
one span of the buffer and no others. `Tape.Onward n s t t'` says so of the tapes before and after.
It is the frame condition of every reader: what is unread stays unread and in order, what was read
outside the span stays as it was, and the byte in front of the new offset is the script's own, so
that the starts of lines can be told from the buffer. What has been reported stays reported.

Moves follow one another (`Onward.trans`), and each way of moving a tape is onward.

## Main results

* `Tape.Onward.trans` — moves add up
* `Tape.onward_transcriptOf` — decoding rewrites bytes under the decoded text only
-/

namespace ScriptLexer.Tape

/-- `t'` is `t` with `n` more bytes read, of which only those under `s` may have been rewritten. -/
structure Onward (n : Nat) (s : Span) (t t' : Tape) : Prop where
  le : n ≤ t.rest.length
  pos : t'.pos = t.pos + n
  rest : t'.rest = t.rest.drop n
  beyond : t'.beyond = t.beyond
  /-- The byte in front of the offset is as it was when it was read. -/
  last : t'.past.toList.getLast? = (t.past.toList ++ t.rest.take n).getLast?
  /-- Bytes outside the span are as they were. -/
  frame : ∀ i, ¬ (s.start ≤ i ∧ i < s.stop) → t'.buffer[i]? = t.buffer[i]?
  /-- The first report is kept. -/
  kept : ∀ d, t.diagnostic = some d → t'.diagnostic = some d

variable {n m : Nat} {s : Span} {t t' t'' : Tape}

namespace Onward

theorem refl (s : Span) (t : Tape) : Onward 0 s t t where
  le := Nat.zero_le _
  pos := rfl
  rest := rfl
  beyond := rfl
  last := by rw [List.take_zero, List.append_nil]
  frame _ _ := rfl
  kept _ h := h

/-- **Moves add up.** -/
theorem trans (h : Onward n s t t') (h' : Onward m s t' t'') : Onward (n + m) s t t'' where
  le := by
    have := h'.le
    rw [h.rest, List.length_drop] at this
    have := h.le
    omega
  pos := by rw [h'.pos, h.pos, Nat.add_assoc]
  rest := by rw [h'.rest, h.rest, List.drop_drop]
  beyond := by rw [h'.beyond, h.beyond]
  last := by
    rw [h'.last, List.getLast?_append, h.last, h.rest, ← List.getLast?_append, List.append_assoc,
      ← List.take_add]
  frame i hi := by rw [h'.frame i hi, h.frame i hi]
  kept d hd := h'.kept d (h.kept d hd)

end Onward

/-! ### Ways of moving -/

theorem advanceBy_zero (t : Tape) : t.advanceBy 0 = t :=
  ext_parts (by simp [advanceBy]) rfl rfl rfl

/-- At the end there is nothing to read. -/
theorem advanceBy_of_atEnd (h : t.atEnd) (n : Nat) : t.advanceBy n = t := by
  rw [atEnd_iff] at h
  refine ext_parts ?_ ?_ rfl rfl <;> simp [advanceBy, h]

/-- No more is read than is left. -/
theorem advanceBy_of_le (h : t.rest.length ≤ n) : t.advanceBy n = t.advanceBy t.rest.length := by
  rw [advanceBy, advanceBy, List.take_of_length_le h, List.drop_of_length_le h, List.take_length,
    List.drop_length]

theorem advanceBy_advanceBy (n m : Nat) (t : Tape) :
    (t.advanceBy n).advanceBy m = t.advanceBy (n + m) := by
  refine ext_parts ?_ ?_ rfl rfl
  · rw [advanceBy, Array.toList_appendList, rest_advanceBy, advanceBy, Array.toList_appendList,
      advanceBy, Array.toList_appendList, List.append_assoc, List.take_add]
  · rw [rest_advanceBy, rest_advanceBy, rest_advanceBy, List.drop_drop]

theorem advance_eq_advanceBy (t : Tape) : t.advance = t.advanceBy 1 := by
  cases hr : t.rest with
  | nil => refine ext_parts ?_ ?_ ?_ ?_ <;> simp [advance, advanceBy, hr]
  | cons b rest => refine ext_parts ?_ ?_ ?_ ?_ <;> simp [advance, advanceBy, hr]

theorem onward_advanceBy (s : Span) (hn : n ≤ t.rest.length) : Onward n s t (t.advanceBy n) where
  le := hn
  pos := by rw [pos_advanceBy, Nat.min_eq_left hn]
  rest := rest_advanceBy n t
  beyond := rfl
  last := by rw [advanceBy, Array.toList_appendList]
  frame i _ := by rw [buffer_advanceBy]
  kept _ h := h

theorem onward_keep (d : Option Diagnostic) (s : Span) (t : Tape) : Onward 0 s t (t.keep d) where
  le := Nat.zero_le _
  pos := rfl
  rest := rfl
  beyond := rfl
  last := by rw [List.take_zero, List.append_nil, past_keep]
  frame _ _ := rfl
  kept e h := by rw [keep, h, Option.some_or]

theorem onward_noteAt (p : Nat) (cause : Malformation) (s : Span) (t : Tape) :
    Onward 0 s t (t.noteAt p cause) :=
  noteAt_eq_keep p cause t ▸ onward_keep _ s t

theorem onward_advance (s : Span) (h : t.rest ≠ []) : Onward 1 s t t.advance := by
  rw [advance_eq_advanceBy]
  exact onward_advanceBy s (List.length_pos_iff.mpr h)

/-- Overwriting with a text rewrites the bytes under the text. -/
theorem onward_overwrite {text : List Byte} (htext : text.length ≤ n) (hn : n ≤ t.rest.length)
    (hfull : text.length = n → text = t.rest.take n) :
    Onward n ⟨t.pos, t.pos + text.length⟩ t (t.overwrite text n) where
  le := hn
  pos := pos_overwrite htext hn
  rest := rfl
  beyond := rfl
  last := by
    rw [past_overwrite]
    rcases Nat.lt_or_eq_of_le htext with hlt | heq
    · -- The last byte read is stale, so it is the script's own.
      have hlen : text.length < (t.rest.take n).length := by
        rw [List.length_take]
        omega
      have hx := List.getLast?_eq_some_getLast
        (List.ne_nil_of_length_pos (Nat.zero_lt_of_lt hlen))
      rw [← List.append_assoc, List.getLast?_append, List.getLast?_drop,
        if_neg (Nat.not_le.mpr hlen), hx, Option.some_or, List.getLast?_append, hx, Option.some_or]
    · rw [hfull heq, List.drop_of_length_le (by simp [List.length_take]), List.append_nil]
  frame i hi := by
    have hpast : t.past.toList.length = t.pos := Array.length_toList
    have hold : t.buffer = t.past.toList ++ (t.rest.take n ++ (t.rest.drop n ++ t.beyond)) := by
      rw [buffer, List.append_assoc, ← List.append_assoc (t.rest.take n), List.take_append_drop]
    have hnew : (t.overwrite text n).buffer = t.past.toList
        ++ (text ++ ((t.rest.take n).drop text.length ++ (t.rest.drop n ++ t.beyond))) := by
      simp [buffer, past_overwrite]
    rw [hold, hnew]
    simp only [List.getElem?_append, hpast, List.length_drop, List.length_take,
      Nat.min_eq_left hn, List.getElem?_drop]
    simp only [not_and, Nat.not_lt] at hi
    by_cases hi' : i < t.pos
    · simp only [if_pos hi']
    · have hge : t.pos + text.length ≤ i := hi (Nat.le_of_not_lt hi')
      have h1 : ¬ i - t.pos < text.length := by omega
      have h2 : text.length + (i - t.pos - text.length) = i - t.pos := by omega
      have h3 : i - t.pos - text.length < n - text.length ↔ i - t.pos < n := by omega
      have h4 : i - t.pos - text.length - (n - text.length) = i - t.pos - n := by omega
      simp only [if_neg hi', if_neg h1, h2, h3, h4]
  kept _ h := h

/-- **Decoding rewrites the bytes under the decoded text only.** -/
theorem onward_transcriptOf (style : Style) (lineStart : Bool) (t : Tape) :
    let p := style.passage lineStart t.rest
    Onward p.length ⟨t.pos, t.pos + p.text.length⟩ t (t.transcriptOf [] 0 p).tape := by
  intro p
  have h := ahead_passage style lineStart t
  have hover := onward_overwrite (t := t.keep (p.fault.map (·.shift t.pos))) h.text_le h.length_le
    (Style.passage_take_of_full style lineStart t.rest)
  have hmove := (onward_keep (p.fault.map (·.shift t.pos)) _ t).trans hover
  simpa [transcriptOf] using hmove

end ScriptLexer.Tape
