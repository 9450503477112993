import Mathlib.Data.List.Forall2
import ScriptLexer.Proofs.Text.Reference

/-!
# Ways to write a text

In decoded text a byte can be written in several ways: as it is, by its value in octal or
hexadecimal digits, by the letter that names it, or behind a backslash. `Reference.Writes` lists
them. Each says enough that what is written next does not matter: three octal digits and two
hexadecimal ones are as many as an escape takes, so a digit that follows is not taken for one more.
A text can therefore be written with any choice for each of its bytes, and is read as it was.

A byte that would close the text, a backslash and a hash sign are not written as they are. With that
no introducer ever begins, whatever the bytes behind it are.

## Main definitions

* `Reference.Writes` — the ways in which a byte can be written

## Main results

* `Reference.decode_written` — a text is read as it was written, byte by byte
-/

namespace ScriptLexer.Reference

/-- The ways in which a byte can be written in a text that `close` closes. -/
inductive Writes (close : Byte) : (b : Byte) → (bytes : List Byte) → Prop
  /-- As it is. -/
  | raw {b : Byte} (hclose : b ≠ close) (hbackslash : b ≠ Byte.ofChar '\\')
      (hhash : b ≠ Byte.ofChar '#') : Writes close b [b]
  /-- By two hexadecimal digits, of either case. -/
  | hexadecimal {b high low : Byte} (hhigh : Byte.isHexadecimal high)
      (hlow : Byte.isHexadecimal low) (hvalue : digit high * 16 + digit low = b.toNat) :
      Writes close b [Byte.ofChar '\\', Byte.ofChar 'x', high, low]
  /-- By three octal digits. -/
  | octal {b high middle low : Byte} (hhigh : Byte.isOctal high) (hmiddle : Byte.isOctal middle)
      (hlow : Byte.isOctal low)
      (hvalue : (digit high * 8 + digit middle) * 8 + digit low = b.toNat) :
      Writes close b [Byte.ofChar '\\', high, middle, low]
  /-- By the letter that names it. -/
  | named {b letter : Byte} (hletter : Reference.named letter = some b) :
      Writes close b [Byte.ofChar '\\', letter]
  /-- Behind a backslash, where that has no other meaning. -/
  | itself {b : Byte} (hname : Reference.named b = none) (hnewline : b ≠ Byte.newline)
      (hoctal : ¬ Byte.isOctal b)
      (hletter : b ≠ Byte.ofChar 'x' ∧ b ≠ Byte.ofChar 'C' ∧ b ≠ Byte.ofChar 'c') :
      Writes close b [Byte.ofChar '\\', b]

variable {close b : Byte} {bytes rest : List Byte}

/-! ### Escapes -/

/-- No octal digit names a byte. -/
theorem named_of_isOctal (hb : Byte.isOctal b) : named b = none := by
  simp only [Byte.isOctal, Bool.and_eq_true, decide_eq_true_eq] at hb
  refine Option.map_eq_none_iff.mpr (List.find?_eq_none.mpr fun entry hentry hname => ?_)
  obtain rfl := eq_of_beq hname
  revert hb
  revert entry
  decide

/-- A numeral with the value of a byte stands for the byte. -/
theorem numeral_eq {base : Nat} {digits : List Byte}
    (h : (digits.map digit).foldl (fun value d => d + base * value) 0 = b.toNat) :
    numeral base digits = b := by
  rw [numeral, Nat.ofDigits_eq_foldr, List.foldr_reverse]
  exact (congrArg UInt8.ofNat h).trans UInt8.ofNat_toNat

theorem escape_hexadecimal {high low : Byte} (hhigh : Byte.isHexadecimal high)
    (hlow : Byte.isHexadecimal low) (hvalue : digit high * 16 + digit low = b.toNat)
    (rest : List Byte) :
    escape (Byte.ofChar 'x' :: high :: low :: rest) = (3, [b], none) := by
  have hrun : run Byte.isHexadecimal 2 (high :: low :: rest) = [high, low] := by
    simp [run, hhigh, hlow]
  have hnumeral : numeral 16 [high, low] = b := by
    refine numeral_eq ?_
    simp only [List.map_cons, List.map_nil, List.foldl_cons, List.foldl_nil]
    omega
  have hnamed : (named (Byte.ofChar 'x')).isSome = false := by decide
  have hoctal : Byte.isOctal (Byte.ofChar 'x') = false := by decide
  rw [escape, hnamed, hoctal, hrun]
  exact congrArg (fun value => (3, [value], none)) hnumeral

theorem escape_octal {high middle low : Byte} (hhigh : Byte.isOctal high)
    (hmiddle : Byte.isOctal middle) (hlow : Byte.isOctal low)
    (hvalue : (digit high * 8 + digit middle) * 8 + digit low = b.toNat) (rest : List Byte) :
    escape (high :: middle :: low :: rest) = (3, [b], none) := by
  have hrun : run Byte.isOctal 3 (high :: middle :: low :: rest) = [high, middle, low] := by
    simp [run, hhigh, hmiddle, hlow]
  have hnumeral : numeral 8 [high, middle, low] = b := by
    refine numeral_eq ?_
    simp only [List.map_cons, List.map_nil, List.foldl_cons, List.foldl_nil]
    omega
  have hnewline : high ≠ Byte.newline := by
    rintro rfl
    cases hhigh
  have hnamed : (named high).isSome = false := by
    rw [named_of_isOctal hhigh]
    rfl
  rw [escape, hnamed, if_neg Bool.false_ne_true, if_neg hnewline, if_pos hhigh, hrun]
  exact congrArg (fun value => (3, [value], none)) hnumeral

/-- **A byte is written as it is, or by an escape that takes no more and no fewer bytes,** whatever
follows it. -/
theorem Writes.cases (h : Writes close b bytes) :
    (bytes = [b] ∧ b ≠ close ∧ b ≠ Byte.ofChar '\\' ∧ b ≠ Byte.ofChar '#')
      ∨ ∃ tail, bytes = Byte.ofChar '\\' :: tail
        ∧ ∀ rest, escape (tail ++ rest) = (tail.length, [b], none) := by
  cases h with
  | raw hclose hbackslash hhash => exact .inl ⟨rfl, hclose, hbackslash, hhash⟩
  | hexadecimal hhigh hlow hvalue => exact .inr ⟨_, rfl, escape_hexadecimal hhigh hlow hvalue⟩
  | octal hhigh hmiddle hlow hvalue =>
    exact .inr ⟨_, rfl, escape_octal hhigh hmiddle hlow hvalue⟩
  | named hletter =>
    refine .inr ⟨_, rfl, fun rest => ?_⟩
    simp [escape, hletter]
  | itself hname hnewline hoctal hletter =>
    refine .inr ⟨_, rfl, fun rest => ?_⟩
    simp [escape, hname, hnewline, hoctal, hletter]

/-! ### Texts -/

theorem not_introduces_of_ne (hb : b ≠ Byte.ofChar '#') (rest : List Byte) :
    ¬ introduces (b :: rest) := by
  cases rest <;> simp [introduces, hb]

/-- **A text is read as it was written,** up to the byte that closes it. -/
theorem decode_written (hclose : close ≠ Byte.ofChar '\\') {text : List Byte}
    {written : List (List Byte)} (h : List.Forall₂ (Writes close) text written)
    (rest : List Byte) :
    decode close (written.flatten ++ close :: rest)
      = ⟨text, written.flatten.length, .closed 1, none⟩ := by
  induction h with
  | nil =>
    rw [List.flatten_nil, List.nil_append, decode, if_pos rfl]
    rfl
  | @cons b bytes text written hb _ ih =>
    rw [List.flatten_cons, List.append_assoc]
    rcases hb.cases with ⟨rfl, hne, hbackslash, hhash⟩ | ⟨tail, rfl, hescape⟩
    · rw [List.singleton_append, decode, if_neg hne, if_neg (not_introduces_of_ne hhash _),
        if_neg hbackslash, ih]
      simp [Nat.add_comm]
    · rw [List.cons_append, decode, if_neg hclose.symm, if_neg (not_introduces_of_ne (by decide) _),
        if_pos rfl, hescape]
      simp only [List.drop_left, ih]
      simp [Nat.add_assoc, Nat.add_comm 1]

end ScriptLexer.Reference
