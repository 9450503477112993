import ScriptLexer.Tape.Basic

/-!
# What the operations do to a tape

A tape is seen through its buffer, its reading offset and its unread bytes. Each operation is
described by what it does to those. Looking up a byte or a slice is the same as looking it up in
the buffer.
-/

namespace ScriptLexer.Tape

/-! ### The buffer -/

@[simp]
theorem length_buffer (t : Tape) : t.buffer.length = t.size := by
  simp [buffer, size, Nat.add_assoc]

/-- A byte looked up in the parts of the tape is the byte of the buffer. -/
theorem byteAt?_eq (i : Nat) (t : Tape) : t.byteAt? i = t.buffer[i]? := by
  rw [byteAt?, buffer]
  split
  · simp_all [List.getElem?_append_left]
  · simp_all [List.getElem?_append_right]

/-- The bytes ahead are those of the buffer from the reading offset on. -/
theorem getElem?_buffer_ahead {i : Nat} {t : Tape} (h : i < t.rest.length) :
    t.buffer[t.pos + i]? = t.rest[i]? := by
  have hpast : t.past.toList.length = t.pos := Array.length_toList
  rw [buffer, List.append_assoc, List.getElem?_append_right (by omega), hpast,
    Nat.add_sub_cancel_left, List.getElem?_append_left h]

theorem bytesUnder_eq (s : Span) (t : Tape) :
    t.bytesUnder s = (t.buffer.drop s.start).take s.length := by
  rw [bytesUnder, Span.length]
  split
  · rename_i h
    rw [buffer, List.append_assoc, Array.toList_extract, List.extract_eq_take_drop,
      List.drop_append, List.take_append]
    have : s.stop - s.start - (t.past.toList.drop s.start).length = 0 := by
      simp only [List.length_drop, Array.length_toList]
      omega
    rw [this, List.take_zero, List.append_nil]
  · rfl

/-- The end has been reached if nothing is unread. -/
theorem atEnd_iff {t : Tape} : t.atEnd ↔ t.rest = [] :=
  List.isEmpty_iff

theorem atEnd_eq_false_iff {t : Tape} : t.atEnd = false ↔ t.rest ≠ [] :=
  List.isEmpty_eq_false_iff

/-- A slice is what the span covers of the buffer, if it lies within. -/
theorem slice_eq_ok_iff {s : Span} {t : Tape} {bytes : List Byte} :
    t.slice s = .ok bytes ↔ s.slice? t.buffer = some bytes := by
  rw [slice, Span.slice?]
  rw [bytesUnder_eq, length_buffer]
  split
  · simp only [reduceCtorEq, false_iff]
    rw [if_neg (by omega)]
    simp
  · split
    · rw [if_neg (by omega)]
      simp
    · rw [if_pos (by omega)]
      simp

/-! ### Moving forward -/

@[simp]
theorem rest_advanceBy (n : Nat) (t : Tape) : (t.advanceBy n).rest = t.rest.drop n :=
  rfl

@[simp]
theorem pos_advanceBy (n : Nat) (t : Tape) :
    (t.advanceBy n).pos = t.pos + min n t.rest.length := by
  rw [pos, advanceBy, ← Array.length_toList, Array.toList_appendList, List.length_append,
    List.length_take, Array.length_toList, pos]

@[simp]
theorem buffer_advanceBy (n : Nat) (t : Tape) : (t.advanceBy n).buffer = t.buffer := by
  rw [buffer, buffer, advanceBy, Array.toList_appendList, List.append_assoc t.past.toList,
    List.take_append_drop]

/-! ### Writing -/

theorem rest_compact {skip : Nat} {b : Byte} {t t' : Tape} (h : t.compact skip b = .ok t') :
    t'.rest = t.rest.tail := by
  rw [compact] at h
  split at h
  · split at h <;> cases h <;> simp_all
  · cases h

/-! ### Reporting -/

@[simp]
theorem rest_noteAt (p : Nat) (cause : Malformation) (t : Tape) :
    (t.noteAt p cause).rest = t.rest := by
  rw [noteAt, reportAt]
  split <;> rfl

@[simp]
theorem pos_noteAt (p : Nat) (cause : Malformation) (t : Tape) :
    (t.noteAt p cause).pos = t.pos := by
  rw [noteAt, reportAt]
  split <;> rfl

@[simp]
theorem buffer_noteAt (p : Nat) (cause : Malformation) (t : Tape) :
    (t.noteAt p cause).buffer = t.buffer := by
  rw [noteAt, reportAt]
  split <;> rfl

end ScriptLexer.Tape
