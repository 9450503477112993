import ScriptLexer.Proofs.Lexer.Step
import ScriptLexer.Proofs.Word.Basic

/-!
# The tape on machine words

The operations of a tape as a machine does them. The reading offset is a word, so moving it is a
sum, and behind every move the byte at the new offset is looked up. A byte that is looked at ahead,
and the bytes in front of an offset, are looked up in the buffer too.

A tape fits if the offset of its end is a word. It does if its script has fewer bytes than an offset
has values, and then each operation is that of the tape.

## Main definitions

* `Tape.Fits` — the offsets of a tape are words
* `Word.compact`, `Word.eat`, `Word.peekByte`, … — the operations on words
* `Word.Leaves` — how much a computation leaves unread

## Main results

* `advance_eq`, `advanceBy_eq`, `eat_eq`, `compact_eq`, … — the operations on words are those of the
  tape
-/

namespace ScriptLexer

/-- The offsets of the tape, the one of its end included, are words. -/
def Tape.Fits (t : Tape) : Prop :=
  t.pos + t.rest.length < Word.offsets

namespace Word

/-! ### Looking -/

/-- Looks up the byte at offset `i`. -/
def index (i : Nat) (t : Tape) : Except Fault Byte :=
  match t.byteAt? i with
  | some b => .ok b
  | none => .error .outOfBounds

/-- The bytes under a span. -/
def slice (s : Span) (t : Tape) : Except Fault (List Byte) :=
  lift (t.slice s)

/-- The unread bytes. -/
def rest (t : Tape) : Except Fault (List Byte) :=
  if t.atEnd then .ok [] else slice ⟨t.pos, t.pos + t.rest.length⟩ t

/-- The unread byte `k` places ahead, or zero past the end. The offset it has is cut off at the
greatest word. -/
def peekByte (k : Nat) (t : Tape) : Except Fault Byte :=
  if t.atEnd then .ok 0
  else
    let i := min (t.pos + k) (offsets - 1)
    if t.pos + t.rest.length ≤ i then .ok 0 else index i t

/-- Whether a line begins at offset `i`. -/
def isLineStart (i : Nat) (t : Tape) : Except Fault Bool :=
  if i = 0 then .ok true
  else do
    let before ← sub i 1
    return t.byteAt? before == some Byte.newline

/-! ### Moving -/

/-- Moves on to offset `p`, or to the end of input, and looks up the byte there. -/
def moveTo (p : Nat) (t : Tape) : Except Fault Tape := do
  if p < t.pos + t.rest.length then
    let _ ← index p t
  return t.advanceBy (p - t.pos)

/-- Reads one byte, if one is left. -/
def advance (t : Tape) : Except Fault Tape :=
  if t.atEnd then .ok t
  else do
    let p ← add offsets t.pos 1
    moveTo p t

/-- Reads `n` bytes, or as many as are left. The new offset is cut off at the greatest word. -/
def advanceBy (n : Nat) (t : Tape) : Except Fault Tape :=
  if t.atEnd then .ok t else moveTo (min (t.pos + n) (offsets - 1)) t

/-- Reads up to offset `p`, or to the end of input. -/
def advanceTo (p : Nat) (t : Tape) : Except Fault Tape :=
  if p < t.pos then .error (.misuse .alreadyRead)
  else if t.atEnd then .ok t
  else moveTo p t

/-- Reads `n` bytes, one after the other. -/
def eat : (n : Nat) → Tape → Except Fault Tape
  | 0, t => .ok t
  | n + 1, t => do
    let t ← advance t
    eat n t

/-! ### Writing -/

/-- Writes `b` at `skip` places behind the reading offset and reads one byte. -/
def compact (skip : Nat) (b : Byte) (t : Tape) : Except Fault Tape :=
  if t.pos < skip then .error (.misuse .beforeStart)
  else if t.atEnd then .ok t
  else do
    let p ← sub t.pos skip
    let _ ← index p t
    let _ ← advance t
    lift (t.compact skip b)

/-! ### What is left unread -/

/-- Whatever a computation on a text answers with, at most `n` bytes are unread then. -/
def Leaves (n : Nat) (x : Except Fault (Tape × Nat)) : Prop :=
  ∀ r, x = .ok r → r.1.rest.length ≤ n

section Leaves

variable {α : Type} {t t' : Tape} {n m p skip : Nat} {b : Byte}

theorem leaves_ok (h : t.rest.length ≤ n) : Leaves n (.ok (t, skip)) := by
  intro r hr
  cases hr
  exact h

theorem Leaves.mono {x : Except Fault (Tape × Nat)} (h : Leaves n x) (hle : n ≤ m) : Leaves m x :=
  fun r hr => Nat.le_trans (h r hr) hle

theorem Leaves.bind {x : Except Fault α} {f : α → Except Fault (Tape × Nat)}
    (h : ∀ a, x = .ok a → Leaves n (f a)) : Leaves n (x >>= f) := by
  intro r hr
  obtain ⟨a, ha, hf⟩ := exists_of_bind_eq_ok hr
  exact h a ha r hf

theorem rest_moveTo (h : moveTo p t = .ok t') : t'.rest = t.rest.drop (p - t.pos) := by
  rw [moveTo] at h
  split at h
  · obtain ⟨b, -, h⟩ := exists_of_bind_eq_ok h
    cases h
    rfl
  · cases h
    rfl

theorem length_rest_advance (h : advance t = .ok t') : t'.rest.length = t.rest.length - 1 := by
  rw [advance] at h
  split at h
  · rename_i hend
    cases h
    rw [Tape.atEnd_iff] at hend
    rw [hend]
    rfl
  · obtain ⟨p, hp, h⟩ := exists_of_bind_eq_ok h
    rw [add] at hp
    split at hp
    · cases hp
      rw [rest_moveTo h, List.length_drop, Nat.add_sub_cancel_left]
    · cases hp

theorem length_rest_advanceBy_le (h : advanceBy n t = .ok t') :
    t'.rest.length ≤ t.rest.length := by
  rw [advanceBy] at h
  split at h
  · cases h
    exact Nat.le_refl _
  · rw [rest_moveTo h, List.length_drop]
    exact Nat.sub_le _ _

theorem length_rest_eat (h : eat n t = .ok t') : t'.rest.length = t.rest.length - n := by
  induction n generalizing t with
  | zero =>
    cases h
    rfl
  | succ n ih =>
    obtain ⟨u, hu, h⟩ := exists_of_bind_eq_ok h
    rw [ih h, length_rest_advance hu, Nat.sub_sub, Nat.add_comm 1]

theorem length_rest_compact (h : compact skip b t = .ok t') :
    t'.rest.length = t.rest.length - 1 := by
  rw [compact] at h
  split at h
  · cases h
  split at h
  · rename_i hend
    cases h
    rw [Tape.atEnd_iff] at hend
    rw [hend]
    rfl
  · obtain ⟨p, -, h⟩ := exists_of_bind_eq_ok h
    obtain ⟨c, -, h⟩ := exists_of_bind_eq_ok h
    obtain ⟨u, -, h⟩ := exists_of_bind_eq_ok h
    rw [Tape.rest_compact (eq_ok_of_lift_eq_ok h), List.length_tail]

end Leaves

/-! ### The operations on words are those of the tape -/

variable {t t' : Tape} {n i p skip : Nat} {b : Byte}

theorem index_eq (h : i < t.size) : ∃ b, index i t = .ok b := by
  have hlength : i < t.buffer.length := by rwa [Tape.length_buffer]
  refine ⟨t.buffer[i], ?_⟩
  rw [index, Tape.byteAt?_eq, List.getElem?_eq_getElem hlength]

theorem rest_eq (t : Tape) : rest t = .ok t.rest := by
  rw [rest]
  split
  · rename_i hend
    rw [Tape.atEnd_iff] at hend
    rw [hend]
  · have hpast : t.past.toList.length = t.pos := Array.length_toList
    have hslice : t.slice ⟨t.pos, t.pos + t.rest.length⟩ = .ok t.rest := by
      rw [Tape.slice_eq_ok_iff, Span.slice?, Tape.buffer, if_pos]
      · rw [Span.length, List.append_assoc, ← hpast, List.drop_left, hpast,
          Nat.add_sub_cancel_left, List.take_left]
      · rw [List.length_append, List.length_append, hpast]
        exact ⟨Nat.le_add_right _ _, Nat.le_add_right _ _⟩
    rw [slice, hslice, lift_ok]

theorem isLineStart_eq (i : Nat) (t : Tape) : isLineStart i t = .ok (t.isLineStart i) := by
  rw [isLineStart, Tape.isLineStart]
  split
  · rename_i hzero
    rw [hzero]
    rfl
  · rename_i hpos
    have hne : (i == 0) = false := by simpa using hpos
    rw [sub_eq (Nat.one_le_iff_ne_zero.mpr hpos), hne]
    rfl

theorem peekByte_eq (h : t.Fits) (k : Nat) : peekByte k t = .ok (t.peekByte k) := by
  rw [Tape.Fits] at h
  have hpast : t.past.toList.length = t.pos := Array.length_toList
  rw [peekByte, Tape.peekByte]
  split
  · rename_i hend
    rw [Tape.atEnd_iff] at hend
    rw [hend]
    rfl
  · by_cases hk : k < t.rest.length
    · have hmin : min (t.pos + k) (offsets - 1) = t.pos + k := by omega
      have hbyte : t.byteAt? (t.pos + k) = some t.rest[k] := by
        rw [Tape.byteAt?_eq, Tape.buffer, List.append_assoc, ← hpast, List.getElem?_append_right
          (Nat.le_add_right _ _), Nat.add_sub_cancel_left, List.getElem?_append_left hk,
          List.getElem?_eq_getElem hk]
      simp only [hmin]
      rw [if_neg (by omega), index, hbyte, List.getD_eq_getElem?_getD,
        List.getElem?_eq_getElem hk, Option.getD_some]
    · rw [if_pos (by omega), List.getD_eq_getElem?_getD,
        List.getElem?_eq_none (Nat.not_lt.mp hk), Option.getD_none]

theorem moveTo_eq (p : Nat) (t : Tape) : moveTo p t = .ok (t.advanceBy (p - t.pos)) := by
  rw [moveTo]
  split
  · rename_i hp
    obtain ⟨b, hb⟩ := index_eq (t := t) (i := p) (by rw [Tape.size, ← Tape.pos]; omega)
    rw [hb]
    rfl
  · rfl

theorem advance_eq (h : t.Fits) : advance t = .ok t.advance := by
  rw [advance, Tape.advance_eq_advanceBy]
  split
  · rename_i hend
    rw [Tape.advanceBy_of_atEnd hend]
  · rename_i hend
    have hpos : 0 < t.rest.length := by
      rw [Tape.atEnd_iff] at hend
      exact List.length_pos_iff.mpr hend
    rw [Tape.Fits] at h
    rw [add_eq (by omega), ok_bind, moveTo_eq, Nat.add_sub_cancel_left]

theorem advanceBy_eq (h : t.Fits) (n : Nat) : advanceBy n t = .ok (t.advanceBy n) := by
  rw [Tape.Fits] at h
  rw [advanceBy]
  split
  · rename_i hend
    rw [Tape.advanceBy_of_atEnd hend]
  · rw [moveTo_eq]
    by_cases hn : t.pos + n < offsets
    · rw [Nat.min_eq_left (by omega), Nat.add_sub_cancel_left]
    · rw [Tape.advanceBy_of_le (n := n) (by omega), Tape.advanceBy_of_le (by omega)]

theorem advanceTo_eq (hp : t.pos ≤ p) : advanceTo p t = .ok (t.advanceBy (p - t.pos)) := by
  rw [advanceTo, if_neg (Nat.not_lt.mpr hp)]
  split
  · rename_i hend
    rw [Tape.advanceBy_of_atEnd hend]
  · exact moveTo_eq p t

end Word

/-! ### Tapes that fit -/

namespace Tape

variable {t t' : Tape} {n : Nat} {s : Span}

theorem Fits.onward (h : t.Fits) (hmove : Onward n s t t') : t'.Fits := by
  have hle := hmove.le
  rw [Fits] at h ⊢
  rw [hmove.pos, hmove.rest, List.length_drop]
  omega

theorem Fits.advanceBy (h : t.Fits) (n : Nat) : (t.advanceBy n).Fits := by
  rw [Fits] at h ⊢
  rw [pos_advanceBy, rest_advanceBy, List.length_drop]
  omega

theorem Fits.noteAt (h : t.Fits) (p : Nat) (cause : Malformation) : (t.noteAt p cause).Fits :=
  h.onward (onward_noteAt p cause ⟨0, 0⟩ t)

/-- The lexer of a script that has fewer bytes than an offset has values. -/
theorem Reads.fits {source : List Byte} (h : t.Reads source)
    (hsource : source.length < Word.offsets) : t.Fits :=
  Nat.lt_of_le_of_lt h.length_rest_le hsource

end Tape

namespace Word

variable {t : Tape} {n skip : Nat}

theorem eat_eq (h : t.Fits) (n : Nat) : eat n t = .ok (t.advanceBy n) := by
  induction n generalizing t with
  | zero => rw [eat, Tape.advanceBy_zero]
  | succ n ih =>
    rw [eat, advance_eq h, ok_bind, Tape.advance_eq_advanceBy, ih (h.advanceBy 1),
      Tape.advanceBy_advanceBy, Nat.add_comm]

theorem compact_eq (h : t.Fits) (hskip : skip ≤ t.pos) (b : Byte) :
    compact skip b t = lift (t.compact skip b) := by
  rw [compact, if_neg (Nat.not_lt.mpr hskip)]
  split
  · rename_i hend
    rw [Tape.atEnd_iff] at hend
    rw [Tape.compact, if_pos hskip, hend, lift_ok]
  · rename_i hend
    rw [Tape.atEnd_iff] at hend
    have hrest := List.length_pos_iff.mpr hend
    obtain ⟨c, hc⟩ := index_eq (t := t) (i := t.pos - skip) (by rw [Tape.size, ← Tape.pos]; omega)
    rw [sub_eq hskip, ok_bind, hc, ok_bind, advance_eq h, ok_bind]

end Word

end ScriptLexer
