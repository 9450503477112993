import ScriptLexer.Proofs.Text.Reference
import ScriptLexer.Proofs.Word.Tape

/-!
# Escapes on machine words

An escape as a machine decodes it: byte by byte from its backslash on, with the number of elided
bytes as a word that grows on the way, and with the value of its digits as a byte that must not
overflow. The escape is cut off anywhere by the end of the script.

It comes to what `Tape.write` does with the piece that `Escape.read` gives, so none of the sums and
differences on the way has a fault: a byte is elided only when it has been read, and one digit at
least has been read where digits are counted down by one.

## Main definitions

* `decodeEscape` — decodes the escape ahead in place

## Main results

* `decodeEscape_eq` — that is writing the piece that the escape is
-/

namespace ScriptLexer.Word

/-! ### Digits -/

/-- Reads octal digits ahead, at most `more` of them behind `digits` others with the value `value`,
which is taken modulo 256. Answers with their number and their value. -/
def octalDigits (t : Tape) : (more digits : Nat) → (value : Byte) → Except Fault (Nat × Byte)
  | 0, digits, value => .ok (digits, value)
  | more + 1, digits, value => do
    let b ← peekByte digits t
    if Byte.isOctal b then
      let digit ← sub b.toNat 0x30
      let digits ← add offsets digits 1
      octalDigits t more digits (value * 8 + UInt8.ofNat digit)
    else return (digits, value)

/-- The value of a hexadecimal digit. -/
def hexValue? (b : Byte) : Except Fault (Option Nat) :=
  if Byte.isDecimal b then do
    let digit ← sub b.toNat 0x30
    return some digit
  else if 0x61 ≤ b && b ≤ 0x66 then do
    let letter ← sub b.toNat 0x61
    let digit ← add bytes letter 10
    return some digit
  else if 0x41 ≤ b && b ≤ 0x46 then do
    let letter ← sub b.toNat 0x41
    let digit ← add bytes letter 10
    return some digit
  else .ok none

/-- Reads hexadecimal digits ahead, at most `more` of them behind `digits` others with the value
`value`. Answers with their number and their value. -/
def hexDigits (t : Tape) : (more digits value : Nat) → Except Fault (Nat × Nat)
  | 0, digits, value => .ok (digits, value)
  | more + 1, digits, value => do
    let b ← peekByte digits t
    match ← hexValue? b with
    | none => return (digits, value)
    | some digit =>
      let product ← mul bytes value 16
      let value ← add bytes product digit
      let digits ← add offsets digits 1
      hexDigits t more digits value

/-! ### Escapes -/

/-- Writes a byte behind a text of which `skip` bytes have been elided. -/
def writeByte (skip : Nat) (b : Byte) (t : Tape) : Except Fault (Tape × Nat) := do
  let t ← compact skip b t
  return (t, skip)

/-- Writes the byte `value` of an escape whose last `digits` bytes are ahead. -/
def writeDigits (digits skip : Nat) (value : Byte) (t : Tape) : Except Fault (Tape × Nat) := do
  let more ← sub digits 1
  let t ← advanceBy more t
  let skip ← add offsets skip more
  writeByte skip value t

/-- Decodes an octal escape whose digits are ahead. -/
def decodeOctal (skip : Nat) (t : Tape) : Except Fault (Tape × Nat) := do
  let (digits, value) ← octalDigits t 3 0 0
  writeDigits digits skip value t

/-- Decodes a hexadecimal escape that began at `backslash` and whose digits are ahead. -/
def decodeHexadecimal (backslash skip : Nat) (t : Tape) : Except Fault (Tape × Nat) := do
  let (digits, value) ← hexDigits t 2 0 0
  if digits = 0 then return (t.noteAt backslash .invalidHexEscape, skip)
  else writeDigits digits skip (UInt8.ofNat value) t

/-- Decodes a control escape whose byte is ahead. -/
def decodeControlled (skip : Nat) (t : Tape) : Except Fault (Tape × Nat) := do
  match ← rest t with
  | [] => return (t, skip)
  | b :: _ => writeByte skip (Escape.control b) t

/-- Decodes a control escape of the long form that began at `backslash` and whose hyphen is
ahead. -/
def decodeLongControl (backslash skip : Nat) (t : Tape) : Except Fault (Tape × Nat) := do
  match ← rest t with
  | 0x2D :: _ =>  -- -
    let t ← advance t
    let skip ← add offsets skip 1
    decodeControlled skip t
  | _ => return (t.noteAt backslash .invalidEscape, skip)

/-- Decodes the escape whose backslash is ahead, behind a text of which `skip` bytes have been
elided. -/
def decodeEscape (skip : Nat) (t : Tape) : Except Fault (Tape × Nat) := do
  let backslash := t.pos
  let t ← advance t
  let skip ← add offsets skip 1
  match ← rest t with
  | [] => return (t, skip)
  | b :: _ =>
    match Escape.named? b with
    | some value => writeByte skip value t
    | none =>
      if b == Byte.newline then
        let t ← advance t
        let skip ← add offsets skip 1
        return (t, skip)
      else if Byte.isOctal b then decodeOctal skip t
      else if b == Byte.ofChar 'x' then
        let t ← advance t
        let skip ← add offsets skip 1
        decodeHexadecimal backslash skip t
      else if b == Byte.ofChar 'C' then
        let t ← advance t
        let skip ← add offsets skip 1
        decodeLongControl backslash skip t
      else if b == Byte.ofChar 'c' then
        let t ← advance t
        let skip ← add offsets skip 1
        decodeControlled skip t
      else writeByte skip b t

/-! ### Escapes are read -/

section Leaves

variable {t : Tape} {n skip digits backslash : Nat} {value : Byte}

theorem leaves_writeByte (skip : Nat) (value : Byte) (t : Tape) :
    Leaves (t.rest.length - 1) (writeByte skip value t) :=
  .bind fun _ hu => leaves_ok (Nat.le_of_eq (length_rest_compact hu))

theorem leaves_writeByte_of_le (h : t.rest.length ≤ n) : Leaves n (writeByte skip value t) :=
  (leaves_writeByte skip value t).mono (Nat.le_trans (Nat.sub_le _ _) h)

theorem leaves_writeDigits (h : t.rest.length ≤ n) :
    Leaves n (writeDigits digits skip value t) := by
  refine .bind fun _ _ => .bind fun u hu => .bind fun _ _ => leaves_writeByte_of_le ?_
  exact Nat.le_trans (length_rest_advanceBy_le hu) h

theorem leaves_decodeControlled (h : t.rest.length ≤ n) : Leaves n (decodeControlled skip t) := by
  refine .bind fun bytes _ => ?_
  split
  · exact leaves_ok h
  · exact leaves_writeByte_of_le h

theorem leaves_decodeLongControl (h : t.rest.length ≤ n) :
    Leaves n (decodeLongControl backslash skip t) := by
  refine .bind fun bytes _ => ?_
  split
  · refine .bind fun u hu => .bind fun _ _ => leaves_decodeControlled ?_
    have hadvance := length_rest_advance hu
    omega
  · exact leaves_ok (by rwa [Tape.rest_noteAt])

theorem leaves_decodeHexadecimal (h : t.rest.length ≤ n) :
    Leaves n (decodeHexadecimal backslash skip t) := by
  refine .bind fun digits _ => ?_
  split
  split
  · exact leaves_ok (by rwa [Tape.rest_noteAt])
  · exact leaves_writeDigits h

/-- An escape has its backslash at least. -/
theorem leaves_decodeEscape (skip : Nat) (t : Tape) :
    Leaves (t.rest.length - 1) (decodeEscape skip t) := by
  refine .bind fun u hu => .bind fun _ _ => .bind fun bytes _ => ?_
  have hle : u.rest.length ≤ t.rest.length - 1 := Nat.le_of_eq (length_rest_advance hu)
  have hbehind : ∀ {v}, advance u = .ok v → v.rest.length ≤ t.rest.length - 1 := by
    intro v hv
    rw [length_rest_advance hv]
    omega
  split
  · exact leaves_ok hle
  split
  · exact leaves_writeByte_of_le hle
  split
  · exact .bind fun v hv => .bind fun _ _ => leaves_ok (hbehind hv)
  split
  · exact .bind fun _ _ => leaves_writeDigits hle
  split
  · exact .bind fun v hv => .bind fun _ _ => leaves_decodeHexadecimal (hbehind hv)
  split
  · exact .bind fun v hv => .bind fun _ _ => leaves_decodeLongControl (hbehind hv)
  split
  · exact .bind fun v hv => .bind fun _ _ => leaves_decodeControlled (hbehind hv)
  · exact leaves_writeByte_of_le hle

end Leaves

/-! ### Digits have no fault -/

variable {t : Tape} {skip : Nat} {b : Byte}

/-- Every digit has a value, which is less than sixteen. -/
theorem hexValue?_eq (b : Byte) :
    hexValue? b = .ok ((Byte.hexValue? b).map UInt8.toNat)
      ∧ ∀ digit ∈ Byte.hexValue? b, digit.toNat < 16 := by
  have hall : ∀ n : Fin 256, hexValue? (UInt8.ofFin n)
        = .ok ((Byte.hexValue? (UInt8.ofFin n)).map UInt8.toNat)
      ∧ ∀ digit ∈ Byte.hexValue? (UInt8.ofFin n), digit.toNat < 16 := by decide +kernel
  exact hall b.toFin

theorem peekByte_eq_headD (k : Nat) (t : Tape) : t.peekByte k = (t.rest.drop k).headD 0 := by
  rw [Tape.peekByte, List.getD_eq_getElem?_getD, List.headD_eq_head?_getD, List.head?_drop]

/-- The digits ahead are read, and none of the sums has a fault. -/
theorem octalDigits_eq (h : t.Fits) (more digits : Nat) (value : Byte)
    (hdigits : digits + more < offsets) :
    octalDigits t more digits value
      = .ok (digits + (((t.rest.drop digits).take more).takeWhile Byte.isOctal).length,
        (((t.rest.drop digits).take more).takeWhile Byte.isOctal).foldl
          (fun value b => value * 8 + (b - 0x30)) value) := by
  induction more generalizing digits value with
  | zero =>
    rw [octalDigits, List.take_zero]
    rfl
  | succ more ih =>
    rw [octalDigits, peekByte_eq h, ok_bind, peekByte_eq_headD]
    cases hahead : t.rest.drop digits with
    | nil => rfl
    | cons b ahead =>
      have htail : t.rest.drop (digits + 1) = ahead := by
        rw [← List.drop_drop, hahead]
        rfl
      rw [List.headD_cons, List.take_succ_cons]
      by_cases hoctal : Byte.isOctal b
      · have hle : 0x30 ≤ b := by
          simp only [Byte.isOctal, Bool.and_eq_true, decide_eq_true_eq] at hoctal
          exact hoctal.1
        have hdigit : UInt8.ofNat (b.toNat - 0x30) = b - 0x30 := ofNat_toNat_sub hle
        rw [if_pos hoctal, sub_eq (show 0x30 ≤ b.toNat from UInt8.le_iff_toNat_le.mp hle), ok_bind,
          add_eq (by omega), ok_bind, ih _ _ (by omega), htail, hdigit,
          List.takeWhile_cons_of_pos hoctal, List.length_cons, List.foldl_cons, Nat.add_right_comm,
          Nat.add_assoc]
      · rw [if_neg hoctal, List.takeWhile_cons_of_neg hoctal]
        rfl

theorem hexDigits_step (h : t.Fits) {more digits value : Nat} (hvalue : value < 16)
    (hdigits : digits + 1 < offsets) :
    hexDigits t (more + 1) digits value
      = match Byte.hexValue? (t.peekByte digits) with
        | none => .ok (digits, value)
        | some digit => hexDigits t more (digits + 1) (value * 16 + digit.toNat) := by
  obtain ⟨hdigit, hlt⟩ := hexValue?_eq (t.peekByte digits)
  rw [hexDigits, peekByte_eq h, ok_bind, hdigit, ok_bind]
  cases hread : Byte.hexValue? (t.peekByte digits) with
  | none => rfl
  | some digit =>
    have hsixteen : digit.toNat < 16 := hlt digit hread
    simp only [Option.map_some]
    rw [mul_eq (by rw [bytes]; omega), ok_bind, add_eq (by rw [bytes]; omega), ok_bind,
      add_eq hdigits, ok_bind]

/-! ### Escapes have no fault -/

/-- A byte that is written `more` bytes behind the first of its piece. -/
theorem writeByte_coded (h : t.Fits) (hskip : skip ≤ t.pos) {more : Nat}
    (hmore : more < t.rest.length) (value : Byte) :
    writeByte (skip + more) value (t.advanceBy more) = lift (t.write skip (.coded more value)) := by
  have hpos : skip + more ≤ (t.advanceBy more).pos := by
    rw [Tape.pos_advanceBy]
    omega
  rw [writeByte, compact_eq (h.advanceBy more) hpos]
  simp only [Tape.write, Piece.coded, Tape.noteIn]
  cases (t.advanceBy more).compact (skip + more) value <;> rfl

/-- The digits of an escape are counted down by one, so its last byte is where its value is
written. -/
theorem writeDigits_eq (h : t.Fits) (hskip : skip ≤ t.pos) {n digits : Nat} (hpos : 0 < digits)
    (hdigits : n + digits ≤ t.rest.length) (value : Byte) :
    writeDigits digits (skip + n) value (t.advanceBy n)
      = lift (t.write skip (.coded (n + digits - 1) value)) := by
  have hfits := h
  rw [Tape.Fits] at hfits
  rw [writeDigits, sub_eq hpos, ok_bind, advanceBy_eq (h.advanceBy n), ok_bind,
    add_eq (by omega), ok_bind, Tape.advanceBy_advanceBy, Nat.add_assoc, ← Nat.add_sub_assoc hpos]
  exact writeByte_coded h hskip (by omega) value

theorem decodeOctal_eq (h : t.Fits) (hskip : skip ≤ t.pos) {b : Byte} {ahead : List Byte}
    (hrest : t.rest.drop 1 = b :: ahead) (hoctal : Byte.isOctal b) :
    decodeOctal (skip + 1) (t.advanceBy 1) = lift (t.write skip (Escape.octal (b :: ahead))) := by
  have hdigits := octalDigits_eq (h.advanceBy 1) 3 0 0 (by decide)
  rw [Tape.rest_advanceBy, hrest, List.drop_zero, Nat.zero_add] at hdigits
  have hle := Escape.length_octalDigits_le (b :: ahead)
  have hlength := congrArg List.length hrest
  rw [List.length_drop] at hlength
  have hpos : 0 < (((b :: ahead).take 3).takeWhile Byte.isOctal).length := by
    rw [List.take_succ_cons, List.takeWhile_cons_of_pos hoctal]
    exact Nat.succ_pos _
  rw [decodeOctal, hdigits, ok_bind, Escape.octal, Escape.octalValue]
  simp only
  rw [writeDigits_eq h hskip hpos (by omega), Nat.add_sub_cancel_left]

/-- An escape that is malformed is reported where its backslash is. -/
theorem noteAt_malformed (skip : Nat) (cause : Malformation) (t : Tape) :
    (.ok ((t.advanceBy 2).noteAt t.pos cause, skip + 2) : Except Fault (Tape × Nat))
      = lift (t.write skip (.malformed 1 cause)) := by
  show _ = Except.ok ((t.noteAt t.pos cause).advanceBy 2, skip + 2)
  rw [Tape.noteAt_eq_keep, Tape.noteAt_eq_keep]
  rfl

theorem decodeHexadecimal_eq (h : t.Fits) (hskip : skip ≤ t.pos) :
    decodeHexadecimal t.pos (skip + 2) (t.advanceBy 2)
      = lift (t.write skip (Escape.hexadecimal (t.rest.drop 2))) := by
  have hfits := h.advanceBy 2
  have hfirst := peekByte_eq_headD 0 (t.advanceBy 2)
  have hsecond := peekByte_eq_headD 1 (t.advanceBy 2)
  have hzero : Byte.hexValue? 0 = none := by decide
  rw [decodeHexadecimal, hexDigits_step hfits (by decide) (by decide), hfirst,
    Tape.rest_advanceBy, List.drop_zero]
  rw [Tape.rest_advanceBy] at hsecond
  have hlength : (t.rest.drop 2).length = t.rest.length - 2 := List.length_drop
  cases hahead : t.rest.drop 2 with
  | nil =>
    simp only [List.headD_nil, hzero, ok_bind]
    exact noteAt_malformed skip _ t
  | cons a ahead =>
    rw [hahead] at hlength hsecond
    rw [List.drop_succ_cons, List.drop_zero] at hsecond
    rw [Escape.hexadecimal, List.headD_cons]
    rw [List.length_cons] at hlength
    cases ha : Byte.hexValue? a with
    | none =>
      simp only [ok_bind]
      exact noteAt_malformed skip _ t
    | some x =>
      have hx : x.toNat < 16 := (hexValue?_eq a).2 x ha
      simp only [Nat.zero_mul, Nat.zero_add]
      rw [hexDigits_step hfits hx (by decide), hsecond]
      cases ahead with
      | nil =>
        simp only [List.headD_nil, hzero, ok_bind, List.head?_nil, Option.bind_none,
          UInt8.ofNat_toNat]
        exact writeDigits_eq h hskip Nat.one_pos (by omega) x
      | cons b ahead =>
        rw [List.length_cons] at hlength
        rw [List.headD_cons, List.head?_cons, Option.bind_some]
        cases hb : Byte.hexValue? b with
        | none =>
          simp only [ok_bind, UInt8.ofNat_toNat]
          exact writeDigits_eq h hskip Nat.one_pos (by omega) x
        | some y =>
          have hvalue : UInt8.ofNat (x.toNat * 16 + y.toNat) = x * 16 + y := by
            rw [UInt8.ofNat_add, UInt8.ofNat_mul, UInt8.ofNat_toNat, UInt8.ofNat_toNat]
            rfl
          simp only [hexDigits, ok_bind, hvalue]
          exact writeDigits_eq h hskip Nat.two_pos (by omega) _

theorem decodeControlled_eq (h : t.Fits) (hskip : skip ≤ t.pos) (more : Nat) :
    decodeControlled (skip + (more + 1)) (t.advanceBy (more + 1))
      = lift (t.write skip (Escape.controlled more (t.rest.drop (more + 1)))) := by
  rw [decodeControlled, rest_eq, ok_bind, Tape.rest_advanceBy]
  cases hrest : t.rest.drop (more + 1) with
  | nil => rfl
  | cons b ahead =>
    have hlength := congrArg List.length hrest
    rw [List.length_drop, List.length_cons] at hlength
    exact writeByte_coded h hskip (by omega) _

/-- Without its hyphen a control escape of the long form is malformed. -/
theorem longControl_malformed {bytes : List Byte} (h : ∀ ahead, bytes ≠ 0x2D :: ahead) :
    Escape.longControl bytes = .malformed 1 .invalidEscape := by
  rw [Escape.longControl.eq_def]
  split
  · rename_i ahead
    exact absurd rfl (h ahead)
  · rfl

theorem decodeLongControl_eq (h : t.Fits) (hskip : skip ≤ t.pos) :
    decodeLongControl t.pos (skip + 2) (t.advanceBy 2)
      = lift (t.write skip (Escape.longControl (t.rest.drop 2))) := by
  have hfits := h
  rw [Tape.Fits] at hfits
  by_cases hhyphen : ∃ ahead, t.rest.drop 2 = 0x2D :: ahead
  · obtain ⟨ahead, hahead⟩ := hhyphen
    have hlength := congrArg List.length hahead
    rw [List.length_drop, List.length_cons] at hlength
    have htail : t.rest.drop 3 = ahead := by
      rw [← List.drop_drop (i := 1) (j := 2), hahead]
      rfl
    have hcontrolled := decodeControlled_eq h hskip 2
    rw [htail] at hcontrolled
    rw [decodeLongControl, rest_eq, ok_bind, Tape.rest_advanceBy, hahead]
    simp only
    rw [advance_eq (h.advanceBy 2), ok_bind, add_eq (by omega), ok_bind,
      Tape.advance_eq_advanceBy, Tape.advanceBy_advanceBy]
    exact hcontrolled
  · have hother : ∀ ahead, t.rest.drop 2 ≠ 0x2D :: ahead := fun ahead h => hhyphen ⟨ahead, h⟩
    rw [longControl_malformed hother, ← noteAt_malformed, decodeLongControl, rest_eq, ok_bind,
      Tape.rest_advanceBy]
    split
    · rename_i ahead hahead
      exact absurd hahead (hother ahead)
    · rfl

/-- **Decoding an escape has no fault,** and is writing the piece that the escape is. -/
theorem decodeEscape_eq (h : t.Fits) (hskip : skip ≤ t.pos) {b : Byte} {bytes : List Byte}
    (hrest : t.rest = b :: bytes) :
    decodeEscape skip t = lift (t.write skip (Escape.read bytes)) := by
  have hfits := h
  rw [Tape.Fits, hrest, List.length_cons] at hfits
  have hbytes : t.rest.drop 1 = bytes := by rw [hrest, List.drop_one, List.tail_cons]
  have hadvance : advance t = .ok (t.advanceBy 1) := by
    rw [advance_eq h, Tape.advance_eq_advanceBy]
  rw [decodeEscape, hadvance, ok_bind, add_eq (by omega), ok_bind, rest_eq, ok_bind,
    Tape.rest_advanceBy, hbytes]
  cases bytes with
  | nil => rfl
  | cons c ahead =>
    rw [List.length_cons] at hfits
    have hlength : t.rest.length = ahead.length + 2 := by
      rw [hrest, List.length_cons, List.length_cons]
    have hahead : t.rest.drop 2 = ahead := by
      rw [hrest]
      rfl
    have hsecond : advance (t.advanceBy 1) = .ok (t.advanceBy 2) := by
      rw [advance_eq (h.advanceBy 1), Tape.advance_eq_advanceBy, Tape.advanceBy_advanceBy]
    have hskips : add offsets (skip + 1) 1 = .ok (skip + 2) := add_eq (by omega)
    rw [Escape.read]
    simp only [hsecond, hskips, ok_bind]
    cases hnamed : Escape.named? c with
    | some value => exact writeByte_coded h hskip (by omega) value
    | none =>
      simp only
      split
      · rfl
      split
      · rename_i hoctal
        exact decodeOctal_eq h hskip hbytes hoctal
      split
      · rw [decodeHexadecimal_eq h hskip, hahead]
      split
      · rw [decodeLongControl_eq h hskip, hahead]
      split
      · rw [← hahead]
        exact decodeControlled_eq h hskip 1
      · exact writeByte_coded h hskip (by omega) c

end ScriptLexer.Word
