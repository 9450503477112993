import ScriptLexer.Proofs.Tape.Calls
import ScriptLexer.Proofs.Word.Basic

/-!
# A tape in memory

A tape is kept in memory as one array of bytes. What has been read and what has not are told apart
by an offset; the byte at the offset is looked up once, when it is reached, and kept; and a flag
tells that the end of input has been reached, since a forced end leaves no other trace. A flat tape
is a tape in this form. Offsets are machine words, so that moving on is a sum that may not fit, and
is cut off at the greatest word where the number of bytes to read is up to the caller.

A computation on words that has a tape behind it needs to look after its sums only. Here there is no
tape behind: a flat tape is all that a machine has, and every byte that is seen is found by its
offset.

Nothing but the order of the steps keeps these parts together: the byte that is kept might be stale,
an offset might pass the end without the flag, and a byte written at the reading offset might be read
later. `Tape.flat` lays a tape out in memory, and each operation of flat tapes is shown to be that of
tapes. It follows for any calls, in any order, that a flat tape behaves as a tape, and stops for a
call outside a contract and for nothing else.

## Main definitions

* `FlatTape` — a tape in memory, and its operations
* `Tape.flat` — a tape, laid out in memory
* `FlatTape.Represents` — a flat tape looks as a tape does

## Main results

* `FlatTape.refresh_eq` — coming to an offset lays out the tape again
* `FlatTape.perform_flat`, `FlatTape.run_eq` — flat tapes answer as tapes do
* `FlatTape.calls_represent` — what can be seen after any calls, and what no later calls undo
* `FlatTape.bulk_moves_eq_steps` — reading many bytes at once leaves what reading them one by one does
-/

namespace ScriptLexer

open Word

/-- A tape in memory. -/
structure FlatTape where
  /-- The bytes, as far as they have been rewritten. -/
  buffer : Array Byte
  /-- The number of bytes that can be read. -/
  length : Nat
  /-- The reading offset. -/
  pos : Nat
  /-- The byte at the reading offset when that was reached, or zero at the end of input. -/
  current : Byte
  /-- Whether the end of input has been reached. -/
  atEnd : Bool
  /-- The first malformation that was reported. -/
  diagnostic : Option Diagnostic
  deriving DecidableEq, Repr

/-- A tape, laid out in memory. -/
def Tape.flat (t : Tape) : FlatTape :=
  ⟨t.buffer.toArray, t.size, t.pos, t.current, t.atEnd, t.diagnostic⟩

namespace FlatTape

/-! ### Looking -/

/-- Looks up the byte at offset `i`. -/
def index (i : Nat) (f : FlatTape) : Except Fault Byte :=
  match f.buffer[i]? with
  | some b => .ok b
  | none => .error .outOfBounds

theorem exists_index {f : FlatTape} {i : Nat} (h : i < f.buffer.size) :
    ∃ b, f.index i = .ok b :=
  ⟨f.buffer[i], by rw [index, Array.getElem?_eq_getElem h]⟩

/-- The bytes from offset `start` up to offset `stop`. -/
def slice (start stop : Nat) (f : FlatTape) : Except Fault (List Byte) :=
  if start ≤ stop ∧ stop ≤ f.buffer.size then .ok (f.buffer.extract start stop).toList
  else .error .outOfBounds

/-- The unread bytes. -/
def rest (f : FlatTape) : Except Fault (List Byte) :=
  if f.atEnd then .ok [] else f.slice f.pos f.length

/-- The next `n` unread bytes, if there are so many. Where their end has no length in memory, there
are not. -/
def peek? (n : Nat) (f : FlatTape) : Except Fault (Option (List Byte)) :=
  if f.atEnd then .ok none
  else if sizes ≤ f.pos + n then .ok none
  else if f.length < f.pos + n then .ok none
  else do
    let bytes ← f.slice f.pos (f.pos + n)
    return some bytes

/-- The unread byte `k` places ahead, or zero past the end. The offset it has is cut off at the
greatest word. -/
def peekByte (k : Nat) (f : FlatTape) : Except Fault Byte :=
  if f.atEnd then .ok 0
  else
    let i := min (f.pos + k) (offsets - 1)
    if f.length ≤ i then .ok 0 else f.index i

/-! ### Moving forward -/

/-- Looks up the byte at the offset that has been reached, or notes that it is past the end. -/
def refresh (f : FlatTape) : Except Fault FlatTape :=
  if f.length ≤ f.pos then .ok { f with pos := f.length, current := 0, atEnd := true }
  else do
    let b ← f.index f.pos
    return { f with current := b }

/-- The flat tape of a script of which nothing has been read. Bytes whose offsets are no words are
never read. -/
def ofBytes (source : List Byte) : Except Fault FlatTape :=
  refresh ⟨source.toArray, min source.length (offsets - 1), 0, 0, false, none⟩

/-- Reads one byte, if one is left. -/
def advance (f : FlatTape) : Except Fault FlatTape :=
  if f.atEnd then .ok f
  else do
    let p ← add offsets f.pos 1
    refresh { f with pos := p }

/-- Reads `n` bytes, or as many as are left. The new offset is cut off at the greatest word. -/
def advanceBy (n : Nat) (f : FlatTape) : Except Fault FlatTape :=
  if f.atEnd then .ok f else refresh { f with pos := min (f.pos + n) (offsets - 1) }

/-- Reads up to offset `p`, or to the end of input. -/
def advanceTo (p : Nat) (f : FlatTape) : Except Fault FlatTape :=
  if p < f.pos then .error (.misuse .alreadyRead)
  else if f.atEnd then .ok f
  else refresh { f with pos := p }

/-- The number of bytes that can be read, the one past the last included. -/
def ahead (f : FlatTape) : Nat :=
  if f.atEnd then 0 else f.length - f.pos + 1

theorem ahead_advance_lt {f f' : FlatTape} (hend : f.atEnd = false) (h : f.advance = .ok f') :
    f'.ahead < f.ahead := by
  rw [advance, hend] at h
  obtain ⟨p, hp, h⟩ := exists_of_bind_eq_ok h
  rw [add] at hp
  split at hp
  · cases hp
    rw [refresh] at h
    split at h
    · cases h
      simp [ahead, hend]
    · rename_i hlt
      obtain ⟨b, -, h⟩ := exists_of_bind_eq_ok h
      cases h
      simp only at hlt
      simp only [ahead, hend, Bool.false_eq_true, if_false]
      omega
  · cases hp

/-- Reads on while the bytes satisfy `p`, one after the other. -/
def eatWhile (p : Byte → Bool) (f : FlatTape) : Except Fault FlatTape :=
  if _hend : f.atEnd || !p f.current then .ok f
  else
    match _hread : f.advance with
    | .error e => .error e
    | .ok f' => eatWhile p f'
termination_by f.ahead
decreasing_by
  rw [Bool.or_eq_true, not_or, Bool.not_eq_true] at _hend
  exact ahead_advance_lt _hend.1 _hread

theorem eatWhile_eq (p : Byte → Bool) (f : FlatTape) :
    f.eatWhile p = if f.atEnd || !p f.current then .ok f else f.advance >>= eatWhile p := by
  rw [eatWhile]
  split
  · rfl
  · cases f.advance <;> rfl

/-- Reads up to the next line feed, which stays unread, or to the end of input. The place where it is
found is a length in memory, and of that the lower half is taken. -/
def eatLine (f : FlatTape) : Except Fault FlatTape := do
  let bytes ← f.rest
  match bytes.findIdx? (· == Byte.newline) with
  | some i =>
    let p ← add offsets f.pos (i % offsets)
    refresh { f with pos := p }
  | none => f.advanceTo f.length

/-- Makes the input end at offset `p`, or where the bytes end. -/
def terminateAt (p : Nat) (f : FlatTape) : FlatTape :=
  { f with pos := min p f.length, current := 0, atEnd := true }

/-! ### Writing and reporting -/

/-- Writes `b` at `skip` places behind the reading offset and reads one byte. -/
def compact (skip : Nat) (b : Byte) (f : FlatTape) : Except Fault FlatTape :=
  if f.pos < skip then .error (.misuse .beforeStart)
  else if f.atEnd then f.advance
  else do
    let i ← sub f.pos skip
    let _ ← f.index i
    advance { f with buffer := f.buffer.setIfInBounds i b }

/-- Reports a malformation at offset `p`. The answer says whether the report was kept. -/
def reportAt (p : Nat) (cause : Malformation) (f : FlatTape) : Bool × FlatTape :=
  match f.diagnostic with
  | some _ => (false, f)
  | none => (true, { f with diagnostic := some ⟨p, cause⟩ })

/-! ### Calls -/

/-- Makes one call. -/
def perform (call : Tape.Call) (f : FlatTape) : Except Fault (Option Bool × FlatTape) :=
  match call with
  | .advance => f.advance.map (none, ·)
  | .advanceBy n => (f.advanceBy n).map (none, ·)
  | .advanceTo p => (f.advanceTo p).map (none, ·)
  | .eatWhile p => (f.eatWhile p).map (none, ·)
  | .eatLine => f.eatLine.map (none, ·)
  | .compact skip b => (f.compact skip b).map (none, ·)
  | .terminateAt p => .ok (none, f.terminateAt p)
  | .report cause => .ok ((f.reportAt f.pos cause).map some id)
  | .reportAt p cause => .ok ((f.reportAt p cause).map some id)

/-- Makes calls, one after the other, of the flat tape of a script. -/
def run (source : List Byte) (calls : List Tape.Call) :
    Except Fault (List (Option Bool) × FlatTape) := do
  let f ← ofBytes source
  performAll perform calls f

/-! ### Looking at a tape that is laid out -/

section Looking

variable {source : List Byte} {t : Tape}

theorem index_flat {i : Nat} (h : i < t.rest.length) :
    t.flat.index (t.pos + i) = .ok t.rest[i] := by
  have hbyte : t.flat.buffer[t.pos + i]? = some t.rest[i] := by
    rw [← List.getElem?_eq_getElem h, ← Tape.getElem?_buffer_ahead h]
    exact List.getElem?_toArray
  rw [index, hbyte]

theorem slice_flat {n : Nat} (h : n ≤ t.rest.length) :
    t.flat.slice t.pos (t.pos + n) = .ok (t.rest.take n) := by
  have hpast : t.past.toList.length = t.pos := Array.length_toList
  have hsize : t.pos + n ≤ t.flat.buffer.size := by
    show t.pos + n ≤ t.buffer.toArray.size
    rw [List.size_toArray, Tape.length_buffer, Tape.size, ← Tape.pos]
    omega
  rw [slice, if_pos ⟨Nat.le_add_right _ _, hsize⟩]
  show Except.ok (t.buffer.toArray.extract t.pos (t.pos + n)).toList = _
  rw [Array.toList_extract, List.extract_eq_take_drop, Nat.add_sub_cancel_left, Tape.buffer,
    List.append_assoc, ← hpast, List.drop_left, List.take_append_of_le_length h]

theorem rest_flat (h : t.Unspoilt source) : t.flat.rest = .ok t.rest := by
  rw [rest]
  show (if t.atEnd then _ else t.flat.slice t.pos t.size) = _
  split
  · rename_i hend
    rw [Tape.atEnd_iff] at hend
    rw [hend]
  · rename_i hend
    rw [Tape.atEnd_iff] at hend
    rw [h.size, ← h.size_eq hend, slice_flat (Nat.le_refl _), List.take_length]

theorem peek?_flat (h : t.Unspoilt source) (hsource : source.length < offsets) (n : Nat) :
    t.flat.peek? n = .ok (t.peek? n) := by
  rw [peek?, Tape.peek?]
  show (if t.atEnd then _ else if sizes ≤ t.pos + n then _
    else if t.size < t.pos + n then _ else (t.flat.slice t.pos (t.pos + n) >>= _)) = _
  split
  · rfl
  · rename_i hend
    rw [Tape.atEnd_iff] at hend
    have hsize := h.size_eq hend
    have hoffsets : offsets ≤ sizes := by decide
    by_cases hn : n ≤ t.rest.length
    · rw [if_neg (by omega), if_neg (by rw [h.size]; omega), if_pos hn, slice_flat hn, ok_bind]
      rfl
    · rw [if_neg hn, if_pos (show t.size < t.pos + n by rw [h.size]; omega)]
      split <;> rfl

theorem peekByte_flat (h : t.Unspoilt source) (hsource : source.length < offsets) (k : Nat) :
    t.flat.peekByte k = .ok (t.peekByte k) := by
  rw [peekByte, Tape.peekByte]
  show (if t.atEnd then _ else if t.size ≤ min (t.pos + k) (offsets - 1) then _
    else t.flat.index (min (t.pos + k) (offsets - 1))) = _
  split
  · rename_i hend
    rw [Tape.atEnd_iff] at hend
    rw [hend]
    rfl
  · rename_i hend
    rw [Tape.atEnd_iff] at hend
    have hsize := h.size_eq hend
    rw [h.size, List.getD_eq_getElem?_getD]
    by_cases hk : k < t.rest.length
    · rw [if_neg (by omega), Nat.min_eq_left (by omega), index_flat hk,
        List.getElem?_eq_getElem hk, Option.getD_some]
    · rw [if_pos (by omega), List.getElem?_eq_none (Nat.not_lt.mp hk), Option.getD_none]

end Looking

/-! ### The operations are those of the tape -/

/-- **Coming to an offset lays out the tape again.** Whatever byte was kept before, the one that is
kept then is the one at the offset. -/
theorem refresh_eq {f : FlatTape} {u : Tape} (hbuffer : f.buffer = u.buffer.toArray)
    (hlength : f.length = u.size) (hpos : min f.pos f.length = u.pos) (hend : f.atEnd = false)
    (hdiagnostic : f.diagnostic = u.diagnostic) (hbeyond : u.beyond = []) :
    f.refresh = .ok u.flat := by
  obtain ⟨buffer, length, pos, current, atEnd, diagnostic⟩ := f
  subst hbuffer hlength hend hdiagnostic
  have hsize : u.size = u.pos + u.rest.length := by
    rw [Tape.size, hbeyond]
    rfl
  simp only at hpos
  rw [refresh]
  split
  · rename_i hle
    simp only at hle
    have hrest : u.rest = [] := List.length_eq_zero_iff.mp (by omega)
    simp only [Tape.flat, Tape.current, Tape.atEnd, hrest, ← hpos, Nat.min_eq_right hle]
    rfl
  · rename_i hlt
    simp only at hlt
    rw [Nat.min_eq_left (by omega)] at hpos
    subst hpos
    obtain ⟨b, rest, hrest⟩ := List.exists_cons_of_length_pos (l := u.rest) (by omega)
    have hindex : u.flat.index u.pos = .ok b := by
      rw [← Nat.add_zero u.pos, index_flat (by rw [hrest]; exact Nat.succ_pos _)]
      simp [hrest]
    show (do
      let b ← u.flat.index u.pos
      return (⟨u.buffer.toArray, u.size, u.pos, b, false, u.diagnostic⟩ : FlatTape)) = _
    rw [hindex, ok_bind, Tape.flat, Tape.current, Tape.atEnd, hrest]
    rfl

section Operations

variable {source : List Byte} {t : Tape} (h : t.Unspoilt source)
  (hsource : source.length < offsets)
include h

/-- Coming to an offset further on is reading up to it. -/
theorem refresh_flat {p : Nat} (hend : t.atEnd = false) (hp : t.pos ≤ p) :
    refresh { t.flat with pos := p } = .ok (t.advanceBy (p - t.pos)).flat := by
  have hrest := Tape.atEnd_eq_false_iff.mp hend
  have hsize := h.size_eq hrest
  have hsame : (t.advanceBy (p - t.pos)).size = t.size := by
    rw [(h.advanceBy _).size, h.size]
  refine refresh_eq ?_ ?_ ?_ hend rfl (h.ahead hrest).2
  · rw [Tape.buffer_advanceBy]
    rfl
  · rw [hsame]
    rfl
  · rw [Tape.pos_advanceBy]
    show min p t.size = _
    rw [h.size]
    omega

theorem advanceTo_flat (p : Nat) :
    t.flat.advanceTo p = lift ((t.advanceTo p).map Tape.flat) := by
  rw [advanceTo, Tape.advanceTo]
  show (if p < t.pos then _ else if t.atEnd then _ else refresh { t.flat with pos := p }) = _
  by_cases hp : t.pos ≤ p
  · rw [if_neg (Nat.not_lt.mpr hp), if_pos hp]
    split
    · rename_i hend
      rw [Tape.advanceBy_of_atEnd hend]
      rfl
    · rename_i hend
      rw [Bool.not_eq_true] at hend
      rw [refresh_flat h hend hp]
      rfl
  · rw [if_pos (Nat.not_le.mp hp), if_neg hp]
    rfl

include hsource

theorem advanceBy_flat (n : Nat) : t.flat.advanceBy n = .ok (t.advanceBy n).flat := by
  rw [advanceBy]
  show (if t.atEnd then _ else refresh { t.flat with pos := min (t.pos + n) (offsets - 1) }) = _
  split
  · rename_i hend
    rw [Tape.advanceBy_of_atEnd hend]
  · rename_i hend
    rw [Bool.not_eq_true] at hend
    have hsize := h.size_eq (Tape.atEnd_eq_false_iff.mp hend)
    rw [refresh_flat h hend (by omega)]
    by_cases hn : t.pos + n < offsets
    · rw [Nat.min_eq_left (by omega), Nat.add_sub_cancel_left]
    · rw [Tape.advanceBy_of_le (n := n) (by omega), Tape.advanceBy_of_le (by omega)]

theorem advance_flat : t.flat.advance = .ok t.advance.flat := by
  rw [advance, Tape.advance_eq_advanceBy]
  show (if t.atEnd then _ else (add offsets t.pos 1 >>= _)) = _
  split
  · rename_i hend
    rw [Tape.advanceBy_of_atEnd hend]
  · rename_i hend
    rw [Bool.not_eq_true] at hend
    have hrest := Tape.atEnd_eq_false_iff.mp hend
    have hsize := h.size_eq hrest
    have hpos := List.length_pos_iff.mpr hrest
    rw [add_eq (by omega), ok_bind, refresh_flat h hend (Nat.le_add_right _ _),
      Nat.add_sub_cancel_left]

theorem eatWhile_flat (p : Byte → Bool) : t.flat.eatWhile p = .ok (t.eatWhile p).flat := by
  induction hn : t.rest.length generalizing t with
  | zero =>
    have hend := Tape.atEnd_iff.mpr (List.length_eq_zero_iff.mp hn)
    have hstops : (t.flat.atEnd || !p t.flat.current) = true := by
      rw [show t.flat.atEnd = true from hend, Bool.true_or]
    rw [eatWhile_eq, if_pos hstops, Tape.eatWhile, Tape.advanceBy_of_atEnd hend]
  | succ n ih =>
    rw [eatWhile_eq, Tape.eatWhile_eq]
    show (if t.atEnd || !p t.current then _ else _) = _
    split
    · rfl
    · have hrest : t.advance.rest.length = n := by
        rw [Tape.advance_eq_advanceBy, Tape.rest_advanceBy, List.length_drop, hn,
          Nat.add_sub_cancel]
      have hunspoilt : t.advance.Unspoilt source := by
        rw [Tape.advance_eq_advanceBy]
        exact h.advanceBy 1
      rw [advance_flat h hsource, ok_bind, ih hunspoilt hrest]

theorem eatLine_flat : t.flat.eatLine = .ok t.eatLine.flat := by
  rw [eatLine, rest_flat h, ok_bind, Tape.eatLine]
  cases hfind : t.rest.findIdx? (· == Byte.newline) with
  | some i =>
    have hlt := (List.findIdx?_eq_some_iff_findIdx_eq.mp hfind).1
    have hrest := List.ne_nil_of_length_pos (Nat.zero_lt_of_lt hlt)
    have hend := Tape.atEnd_eq_false_iff.mpr hrest
    have hsize := h.size_eq hrest
    show (add offsets t.pos (i % offsets) >>= _) = _
    rw [Nat.mod_eq_of_lt (by omega), add_eq (by omega), ok_bind,
      refresh_flat h hend (Nat.le_add_right _ _), Nat.add_sub_cancel_left]
  | none =>
    show t.flat.advanceTo t.size = _
    have hle : t.pos ≤ t.size := by
      rw [Tape.size, ← Tape.pos]
      omega
    rw [advanceTo_flat h, Tape.advanceTo, if_pos hle]
    by_cases hend : t.atEnd
    · rw [Tape.advanceBy_of_atEnd hend, Tape.advanceBy_of_atEnd hend]
      rfl
    · have hsize := h.size_eq (mt Tape.atEnd_iff.mpr hend)
      rw [h.size, ← hsize, Nat.add_sub_cancel_left]
      rfl

/-- Where a byte was written behind the offset or at it, the byte that is kept next is the one behind
the offset all the same. -/
theorem advance_written {u : Tape} {skip : Nat} {b : Byte} (hend : t.atEnd = false)
    (hu : t.compact skip b = .ok u) :
    advance { t.flat with buffer := t.flat.buffer.setIfInBounds (t.pos - skip) b } = .ok u.flat := by
  have hne := Tape.atEnd_eq_false_iff.mp hend
  have hsize := h.size_eq hne
  have hlength := List.length_pos_iff.mpr hne
  have hsame : t.size = u.size := by rw [(h.compact hu).size, h.size]
  rcases Tape.compact_cases hu with ⟨hnil, -⟩
    | ⟨c, rest, -, -, hpos, hbuffer, hbeyond, hdiagnostic⟩
  · exact absurd hnil hne
  · rw [advance]
    show (if t.atEnd then _ else (add offsets t.pos 1 >>= _)) = _
    rw [hend, if_neg Bool.false_ne_true, add_eq (by omega), ok_bind]
    refine refresh_eq ?_ hsame ?_ hend hdiagnostic.symm ?_
    · show t.buffer.toArray.setIfInBounds (t.pos - skip) b = _
      rw [List.setIfInBounds_toArray, hbuffer]
    · show min (t.pos + 1) t.size = u.pos
      rw [hpos, h.size]
      omega
    · rw [hbeyond, (h.ahead hne).2]

theorem compact_flat (skip : Nat) (b : Byte) :
    t.flat.compact skip b = lift ((t.compact skip b).map Tape.flat) := by
  rw [compact]
  show (if t.pos < skip then _ else if t.atEnd then t.flat.advance else sub t.pos skip >>= _) = _
  by_cases hskip : skip ≤ t.pos
  · rw [if_neg (Nat.not_lt.mpr hskip)]
    cases hrest : t.rest with
    | nil =>
      have hend := Tape.atEnd_iff.mpr hrest
      rw [if_pos hend, advance_flat h hsource, Tape.advance, Tape.compact, if_pos hskip, hrest]
      rfl
    | cons c rest =>
      have hne : t.rest ≠ [] := hrest ▸ List.cons_ne_nil c rest
      have hend := Tape.atEnd_eq_false_iff.mpr hne
      have hsize := h.size_eq hne
      have hlength := List.length_pos_iff.mpr hne
      obtain ⟨old, hold⟩ := exists_index (f := t.flat) (i := t.pos - skip) (by
        show t.pos - skip < t.buffer.toArray.size
        rw [List.size_toArray, Tape.length_buffer, h.size]
        omega)
      obtain ⟨u, hu⟩ : ∃ u, t.compact skip b = .ok u := by
        rw [Tape.compact, if_pos hskip, hrest]
        exact ⟨_, rfl⟩
      rw [hend, if_neg Bool.false_ne_true, sub_eq hskip, ok_bind, hold, ok_bind,
        advance_written h hsource hend hu, hu]
      rfl
  · rw [if_pos (Nat.not_le.mp hskip), Tape.compact, if_neg hskip]
    rfl

end Operations

theorem terminateAt_flat (p : Nat) (t : Tape) :
    t.flat.terminateAt p = (t.terminateAt p).flat := by
  have hlength : (t.terminateAt p).buffer.length = t.buffer.length := by
    rw [Tape.buffer_terminateAt]
  have hpos : min p t.size = (t.terminateAt p).pos := by
    show min p t.size = (t.buffer.take p).toArray.size
    rw [List.size_toArray, List.length_take, Tape.length_buffer]
  rw [Tape.length_buffer, Tape.length_buffer] at hlength
  rw [terminateAt, Tape.flat, Tape.flat, Tape.buffer_terminateAt, hlength, ← hpos]
  rfl

theorem reportAt_flat (p : Nat) (cause : Malformation) (t : Tape) :
    t.flat.reportAt p cause = (t.reportAt p cause).map id Tape.flat := by
  rw [reportAt, Tape.reportAt]
  show (match t.diagnostic with | some _ => _ | none => _) = _
  cases t.diagnostic <;> rfl

/-! ### Calls -/

section Calls

variable {source : List Byte} {t : Tape} {calls : List Tape.Call}
  {answers : List (Option Bool)}

/-- **A call of a flat tape is the call of the tape,** and stops where that has a contract that is
not met. -/
theorem perform_flat (h : t.Unspoilt source) (hsource : source.length < offsets)
    (call : Tape.Call) :
    perform call t.flat = lift ((t.perform call).map (Prod.map id Tape.flat)) := by
  cases call with
  | advance =>
    rw [perform, advance_flat h hsource]
    rfl
  | advanceBy n =>
    rw [perform, advanceBy_flat h hsource]
    rfl
  | advanceTo p =>
    rw [perform, advanceTo_flat h, Tape.perform]
    cases t.advanceTo p <;> rfl
  | eatWhile p =>
    rw [perform, eatWhile_flat h hsource]
    rfl
  | eatLine =>
    rw [perform, eatLine_flat h hsource]
    rfl
  | compact skip b =>
    rw [perform, compact_flat h hsource, Tape.perform]
    cases t.compact skip b <;> rfl
  | terminateAt p =>
    rw [perform, terminateAt_flat]
    rfl
  | report cause =>
    rw [perform, reportAt_flat]
    rfl
  | reportAt p cause =>
    rw [perform, reportAt_flat]
    rfl

theorem performAll_flat (h : t.Unspoilt source) (hsource : source.length < offsets)
    (calls : List Tape.Call) :
    performAll perform calls t.flat
      = lift ((performAll Tape.perform calls t).map (Prod.map id Tape.flat)) := by
  induction calls generalizing t with
  | nil => rfl
  | cons call calls ih =>
    rw [performAll, performAll, perform_flat h hsource]
    cases hcall : t.perform call with
    | error e => rfl
    | ok r =>
      show (performAll perform calls r.2.flat >>= _) = _
      rw [ih (h.perform hcall)]
      show (lift ((performAll Tape.perform calls r.2).map _) >>= _)
        = lift ((performAll Tape.perform calls r.2 >>= _).map _)
      cases performAll Tape.perform calls r.2 <;> rfl

theorem ofBytes_flat (hsource : source.length < offsets) :
    ofBytes source = .ok (Tape.ofBytes source).flat := by
  have hsize : min source.length (offsets - 1) = (Tape.ofBytes source).size := by
    rw [(Tape.Unspoilt.ofBytes source).size]
    exact Nat.min_eq_left (Nat.le_sub_one_of_lt hsource)
  have hbuffer : source.toArray = (Tape.ofBytes source).buffer.toArray := by
    simp [Tape.buffer, Tape.ofBytes]
  exact refresh_eq hbuffer hsize (Nat.zero_min _) rfl rfl rfl

/-- **Flat tapes answer as tapes do,** to any calls in any order. -/
theorem run_eq (hsource : source.length < offsets) (calls : List Tape.Call) :
    run source calls
      = lift ((performAll Tape.perform calls (.ofBytes source)).map (Prod.map id Tape.flat)) := by
  rw [run, ofBytes_flat hsource, ok_bind, performAll_flat (.ofBytes source) hsource]

/-- What is looked up ahead in a flat tape is what is ahead in a tape. -/
structure Represents (t : Tape) (f : FlatTape) : Prop where
  rest : f.rest = .ok t.rest
  peek? : ∀ n, f.peek? n = .ok (t.peek? n)
  peekByte : ∀ k, f.peekByte k = .ok (t.peekByte k)

theorem represents_flat (h : t.Unspoilt source) (hsource : source.length < offsets) :
    Represents t t.flat where
  rest := rest_flat h
  peek? := peek?_flat h hsource
  peekByte := peekByte_flat h hsource

/-- The steps of a tape are those of the flat tape, if it was reached from a script. -/
theorem movesInSteps_flat (h : t.Unspoilt source) (hsource : source.length < offsets) :
    MovesInSteps perform t.flat.pos t.flat := by
  have hcall {call : Tape.Call} {u : Tape} (hu : t.perform call = .ok (none, u)) :
      perform call t.flat = .ok (none, u.flat) := by
    rw [perform_flat h hsource, hu]
    rfl
  have hcalls {n : Nat} {u : Tape} (hu : performAll Tape.perform (List.replicate n .advance) t
      = .ok (List.replicate n none, u)) :
      performAll perform (List.replicate n .advance) t.flat
        = .ok (List.replicate n none, u.flat) := by
    rw [performAll_flat h hsource, hu]
    rfl
  constructor
  · intro n
    obtain ⟨u, hu, hsteps⟩ := t.movesInSteps.advanceBy n
    exact ⟨u.flat, hcall hu, hcalls hsteps⟩
  · intro p hp
    obtain ⟨u, hu, hsteps⟩ := t.movesInSteps.advanceTo p hp
    exact ⟨u.flat, hcall hu, hcalls hsteps⟩
  · obtain ⟨u, hu, hsteps⟩ := t.movesInSteps.eatLine
    exact ⟨u.flat, hcall hu, hcall hsteps⟩

/-- A script of three lines. -/
def threeLines : List Byte :=
  [0x61, 0x0A, 0x62, 0x0A, 0x63]

/-- Calls that report twice and write behind the reading offset and at it. -/
def rewriting : List Tape.Call :=
  [.eatLine, .report .invalidEscape, .compact 1 0x78, .reportAt 0 .strayBackslash, .compact 0 0x79]

/-- The tape that the calls lead to. -/
def rewritten : Tape :=
  ⟨#[0x78, 0x0A, 0x79], [0x0A, 0x63], [], some ⟨1, .invalidEscape⟩⟩

theorem performAll_rewriting : performAll Tape.perform rewriting (.ofBytes threeLines)
    = .ok ([none, some true, none, some false, none], rewritten) :=
  rfl

/-- **What any calls leave behind.** Let any calls be made, in any order and with any arguments, of
the tape of a script whose length is a word. The flat tape stops at a call that is outside a
contract, as the tape does, and at no other. Else it is the tape laid out, and looks as the tape
does, which shows the script: before the end the bytes ahead are the script's, and at the end there
are none. If a report was kept there is one call that was answered so, and that call made it. And
whatever is called later, the report and the end stay, no byte is written behind the end, and
nothing but another forced end moves the tape there. -/
theorem calls_represent (hsource : source.length < offsets) (calls : List Tape.Call) :
    run source calls
        = lift ((performAll Tape.perform calls (.ofBytes source)).map (Prod.map id Tape.flat))
      ∧ ∀ answers t, performAll Tape.perform calls (.ofBytes source) = .ok (answers, t) →
        t.Shows source ∧ Represents t t.flat
          ∧ answers.count (some true) = t.diagnostic.isSome.toNat
          ∧ (∀ call answer t', t.perform call = .ok (answer, t') →
            (answer = some true ↔ t.diagnostic = none ∧ t'.diagnostic.isSome))
          ∧ ∀ later answers' t', performAll Tape.perform later t = .ok (answers', t') →
            Tape.Lasts later t t' := by
  refine ⟨run_eq hsource calls, ?_⟩
  intro answers t h
  have hunspoilt : t.Unspoilt source := (Tape.Unspoilt.ofBytes source).performAll h
  refine ⟨hunspoilt.shows, represents_flat hunspoilt hsource, ?_, ?_, ?_⟩
  · have hcount := Tape.toNat_add_count h
    rwa [show (Tape.ofBytes source).diagnostic = none from rfl, Option.isSome_none,
      Bool.toNat_false, Nat.zero_add] at hcount
  · intro call answer t' hcall
    rcases Tape.diagnostic_perform hcall with ⟨rfl, hnone, hsome⟩ | ⟨hanswer, hsame⟩
    · simp [hnone, hsome]
    · simp [hanswer, hsame]
  · intro later answers' t' hlater
    exact Tape.lasts_performAll hlater

theorem calls_represent_rewriting :
    threeLines.length < offsets
      ∧ rewritten.Shows threeLines ∧ Represents rewritten rewritten.flat
      ∧ Tape.Lasts [.terminateAt 1, .compact 1 0] rewritten
        ⟨#[0x78], [], [0x0A, 0x79, 0x0A, 0x63], some ⟨1, .invalidEscape⟩⟩ := by
  have hsource : threeLines.length < offsets := by decide
  obtain ⟨hshows, hrepresents, -, -, hlasts⟩ :=
    (calls_represent hsource rewriting).2 _ rewritten performAll_rewriting
  exact ⟨hsource, hshows, hrepresents, hlasts _ [none, none] _ rfl⟩

/-- **Many bytes at once are read as one by one,** by tapes and by flat tapes, in every state that
any calls lead to: at the end of a script and behind a forced end too, and however far the calls go
beyond it. -/
theorem bulk_moves_eq_steps (hsource : source.length < offsets)
    (h : performAll Tape.perform calls (.ofBytes source) = .ok (answers, t)) :
    run source calls = .ok (answers, t.flat)
      ∧ MovesInSteps Tape.perform t.pos t ∧ MovesInSteps perform t.flat.pos t.flat := by
  refine ⟨?_, t.movesInSteps, ?_⟩
  · rw [run_eq hsource, h]
    rfl
  · exact movesInSteps_flat ((Tape.Unspoilt.ofBytes source).performAll h) hsource

theorem bulk_moves_eq_steps_rewriting :
    threeLines.length < offsets
      ∧ run threeLines rewriting
        = .ok ([none, some true, none, some false, none], rewritten.flat)
      ∧ MovesInSteps Tape.perform rewritten.pos rewritten
      ∧ MovesInSteps perform rewritten.flat.pos rewritten.flat := by
  have hsource : threeLines.length < offsets := by decide
  exact ⟨hsource, bulk_moves_eq_steps hsource performAll_rewriting⟩

end Calls

end FlatTape

end ScriptLexer
