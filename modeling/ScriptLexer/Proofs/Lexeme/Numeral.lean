import ScriptLexer.Proofs.Lexeme.Kinds

/-!
# The languages of numbers

A number is scanned byte by byte, and every attempt that comes to nothing falls back on what was
read before it. Here the numbers are given by their languages instead, without an order in which
anything is tried, and what is scanned is shown to be the longest text of any of them that begins
the bytes. No text is a number of two kinds.

The point of the proof is `Number.Spells.reaches`: a text that is a number is at least reached, with
whatever bytes behind it, and where the scan stops right there the kinds agree. So the scan goes as
far as any of the languages, and it only remains that what it stops at is a number.

## Main definitions

* `Number.Spells` — the texts of numbers, by their kinds
* `Longest` — the longest text of a family of languages that begins some bytes

## Main results

* `Number.longest_read` — what is scanned is the longest number
-/

namespace ScriptLexer

/-- The text is the longest one that begins some bytes and belongs to one of the languages, and it
belongs to the one of `kind` only. -/
structure Longest (language : Kind → List Byte → Prop) (bytes : List Byte) (kind : Kind)
    (text : List Byte) : Prop where
  begins : text <+: bytes
  spells : language kind text
  longest : ∀ kind' text', language kind' text' → text' <+: bytes → text'.length ≤ text.length
  unique : ∀ kind', language kind' text → kind' = kind

namespace Number

/-! ### Languages -/

/-- Any number of digits and underscores. -/
def Digits (isDigit : Byte → Bool) (text : List Byte) : Prop :=
  ∀ b ∈ text, isDigit b || b == Byte.ofChar '_'

/-- A decimal digit, and any number of digits and underscores. -/
inductive Decimals : List Byte → Prop
  | cons {b : Byte} {text : List Byte} (hb : b.isDecimal) (h : Digits Byte.isDecimal text) :
      Decimals (b :: text)

/-- A letter, a sign if there is one, and decimal digits. -/
inductive Exponent : List Byte → Prop
  | unsigned {e : Byte} {text : List Byte} (he : e = Byte.ofChar 'e' ∨ e = Byte.ofChar 'E')
      (h : Decimals text) : Exponent (e :: text)
  | signed {e sign : Byte} {text : List Byte} (he : e = Byte.ofChar 'e' ∨ e = Byte.ofChar 'E')
      (hsign : sign = Byte.ofChar '+' ∨ sign = Byte.ofChar '-') (h : Decimals text) :
      Exponent (e :: sign :: text)

/-- What may stand behind the whole part of a number, and the kind of the number then. -/
inductive Tail : Kind → List Byte → Prop
  | nothing : Tail .decimalInteger []
  | exponent {x : List Byte} (hx : Exponent x) : Tail .float x
  | fraction {f : List Byte} (hf : Decimals f) : Tail .float (Byte.ofChar '.' :: f)
  | fractionExponent {f x : List Byte} (hf : Decimals f) (hx : Exponent x) :
      Tail .float (Byte.ofChar '.' :: f ++ x)

/-- The whole part of a number without a base: a zero, or digits of which the first is another. -/
inductive Whole : List Byte → Prop
  | zero : Whole [Byte.ofChar '0']
  | nonzero {b : Byte} {text : List Byte} (hb : b.isNonzeroDecimal)
      (h : Digits Byte.isDecimal text) : Whole (b :: text)

/-- What says, behind a zero, which digits follow, and of which kind the number is. An octal digit
says so by itself. -/
inductive Base (mark : Byte) : Kind → (Byte → Bool) → Prop
  | decimal (h : mark = Byte.ofChar 'd' ∨ mark = Byte.ofChar 'D') :
      Base mark .decimalInteger Byte.isDecimal
  | binary (h : mark = Byte.ofChar 'b' ∨ mark = Byte.ofChar 'B') :
      Base mark .binaryInteger Byte.isBinary
  | octal (h : mark = Byte.ofChar 'o' ∨ mark = Byte.ofChar 'O' ∨ mark = Byte.ofChar '_') :
      Base mark .octalInteger Byte.isOctal
  | hexadecimal (h : mark = Byte.ofChar 'x' ∨ mark = Byte.ofChar 'X') :
      Base mark .hexadecimalInteger Byte.isHexadecimal
  | digit (h : mark.isOctal) : Base mark .octalInteger Byte.isOctal

/-- **The texts of numbers,** by their kinds. -/
inductive Spells : Kind → List Byte → Prop
  | based {mark : Byte} {kind : Kind} {isDigit : Byte → Bool} {text : List Byte}
      (hmark : Base mark kind isDigit) (h : Digits isDigit text) :
      Spells kind (Byte.ofChar '0' :: mark :: text)
  | plain {kind : Kind} {whole text : List Byte} (hwhole : Whole whole) (h : Tail kind text) :
      Spells kind (whole ++ text)

/-! ### Runs of digits -/

variable {isDigit : Byte → Bool} {kind : Kind} {text rest bytes : List Byte} {b : Byte}

theorem digits_append (h : Digits isDigit text) (rest : List Byte) :
    digits isDigit (text ++ rest) = text.length + digits isDigit rest := by
  rw [digits, List.takeWhile_append_of_pos h, List.length_append]
  rfl

theorem digits_cons (hb : (isDigit b || b == Byte.ofChar '_') = false) (rest : List Byte) :
    digits isDigit (b :: rest) = 0 := by
  rw [digits, List.takeWhile_cons_of_neg (by simp [hb])]
  rfl

theorem digits_take (isDigit : Byte → Bool) (rest : List Byte) :
    Digits isDigit (rest.take (digits isDigit rest)) := by
  intro b hb
  rw [digits, ← List.prefix_iff_eq_take.mp (List.takeWhile_prefix _)] at hb
  exact (List.mem_takeWhile_imp hb :)

theorem Decimals.digits (h : Decimals text) : Digits Byte.isDecimal text := by
  obtain ⟨hb, h⟩ := h
  exact List.forall_mem_cons.mpr ⟨by rw [hb, Bool.true_or], h⟩

theorem Decimals.startsWithDigit (h : Decimals text) (rest : List Byte) :
    startsWithDigit (text ++ rest) := by
  obtain ⟨hb, -⟩ := h
  exact hb

theorem decimals_take (h : startsWithDigit rest) :
    Decimals (rest.take (Number.digits Byte.isDecimal rest)) := by
  cases rest with
  | nil => cases h
  | cons b rest =>
    have hb : (Byte.isDecimal b || b == Byte.ofChar '_') = true := by
      rw [show Byte.isDecimal b = true from h, Bool.true_or]
    rw [show b :: rest = [b] ++ rest from rfl,
      digits_append (List.forall_mem_singleton.mpr hb), List.take_length_add_append]
    exact .cons h (digits_take Byte.isDecimal rest)

/-- A run of digits does not begin with a sign. -/
theorem Decimals.sign_eq_zero (h : Decimals text) (rest : List Byte) : sign (text ++ rest) = 0 := by
  obtain ⟨hb, -⟩ := h
  rw [List.cons_append, sign.eq_def]
  split <;> rename_i heq
  · rw [(List.cons.inj heq).1] at hb
    cases hb
  · rw [(List.cons.inj heq).1] at hb
    cases hb
  · rfl

/-! ### Exponents and fractions -/

theorem Exponent.exists_cons (h : Exponent text) :
    ∃ e behind, text = e :: behind ∧ (e = Byte.ofChar 'e' ∨ e = Byte.ofChar 'E') := by
  cases h with
  | unsigned he _ => exact ⟨_, _, rfl, he⟩
  | signed he _ _ => exact ⟨_, _, rfl, he⟩

/-- An exponent is read to the end of its digits. -/
theorem Exponent.exponent_append (h : Exponent text) (rest : List Byte) :
    exponent (text ++ rest) = text.length + Number.digits Byte.isDecimal rest := by
  cases h with
  | @unsigned e text he h =>
    have hletter : (e == Byte.ofChar 'e' || e == Byte.ofChar 'E') = true := by simpa using he
    have hsign := h.sign_eq_zero rest
    simp only [List.cons_append, exponent, hletter, hsign, List.drop_zero, h.startsWithDigit rest,
      Bool.and_self, if_true, digits_append h.digits, List.length_cons]
    omega
  | @signed e sign text he hsign h =>
    have hletter : (e == Byte.ofChar 'e' || e == Byte.ofChar 'E') = true := by simpa using he
    have hone : Number.sign (sign :: (text ++ rest)) = 1 := by
      rcases hsign with rfl | rfl <;> rfl
    simp only [List.cons_append, exponent, hletter, hone, List.drop_succ_cons, List.drop_zero,
      h.startsWithDigit rest, Bool.and_self, if_true, digits_append h.digits, List.length_cons]
    omega

theorem exponent_take (h : exponent rest ≠ 0) : Exponent (rest.take (exponent rest)) := by
  cases rest with
  | nil => exact absurd rfl h
  | cons e rest =>
    simp only [exponent] at h ⊢
    split at h
    · rename_i hletter
      rw [if_pos hletter]
      rw [Bool.and_eq_true, Bool.or_eq_true, beq_iff_eq, beq_iff_eq] at hletter
      obtain ⟨he, hdigit⟩ := hletter
      rw [Nat.add_assoc, Nat.add_comm, List.take_succ_cons]
      rw [sign.eq_def] at hdigit ⊢
      split at hdigit
      · rw [Nat.add_comm, List.take_succ_cons]
        exact .signed he (.inl rfl) (decimals_take hdigit)
      · rw [Nat.add_comm, List.take_succ_cons]
        exact .signed he (.inr rfl) (decimals_take hdigit)
      · rw [Nat.zero_add]
        exact .unsigned he (decimals_take hdigit)
    · exact absurd rfl h

/-- A fraction is read to the end of its digits. -/
theorem Decimals.fraction_append (h : Decimals text) (rest : List Byte) :
    fraction (Byte.ofChar '.' :: (text ++ rest))
      = 1 + text.length + Number.digits Byte.isDecimal rest := by
  show (if Number.startsWithDigit (text ++ rest) then _ else 0) = _
  rw [if_pos (h.startsWithDigit rest), digits_append h.digits, Nat.add_assoc]

theorem fraction_take (h : fraction rest ≠ 0) :
    ∃ f, Decimals f ∧ rest.take (fraction rest) = Byte.ofChar '.' :: f := by
  rw [fraction.eq_def] at h ⊢
  split at h
  · rename_i behind
    split at h
    · rename_i hdigit
      refine ⟨_, decimals_take hdigit, ?_⟩
      rw [if_pos hdigit, Nat.add_comm, List.take_succ_cons]
      rfl
    · exact absurd rfl h
  · exact absurd rfl h

/-- In front of an exponent digits stop, and there is no fraction. -/
theorem Exponent.stops (h : Exponent text) (rest : List Byte) :
    fraction (text ++ rest) = 0 ∧ Number.digits Byte.isDecimal (text ++ rest) = 0 := by
  obtain ⟨e, behind, rfl, rfl | rfl⟩ := h.exists_cons
  · exact ⟨rfl, digits_cons (by decide) _⟩
  · exact ⟨rfl, digits_cons (by decide) _⟩

/-! ### Behind the whole part -/

theorem tail_snd (rest : List Byte) :
    (tail rest).2 = fraction rest + exponent (rest.drop (fraction rest)) := by
  rw [tail]
  split
  · rename_i hzero
    exact hzero.symm
  · rfl

/-- Only where something stands behind its whole part the number is a floating-point number. -/
theorem tail_fst (rest : List Byte) :
    (tail rest).1 = if (tail rest).2 = 0 then .decimalInteger else .float := by
  rw [tail]
  split
  · rfl
  · rename_i hne
    exact (if_neg (by simpa using hne)).symm

theorem Tail.kind_eq (h : Tail kind text) :
    kind = if text.length = 0 then .decimalInteger else .float := by
  cases h with
  | nothing | fraction _ | fractionExponent _ _ => rfl
  | exponent hx =>
    obtain ⟨e, behind, rfl, -⟩ := hx.exists_cons
    rfl

/-- What is read goes as far as a text of the kind, and is of the kind if it goes no further. -/
def Reaches (read : Kind × Nat) (kind : Kind) (length : Nat) : Prop :=
  length ≤ read.2 ∧ (read.2 = length → read.1 = kind)

theorem Tail.reaches (h : Tail kind text) (rest : List Byte) :
    Reaches (tail (text ++ rest)) kind text.length := by
  refine ⟨?_, fun hlength => by rw [tail_fst, hlength, h.kind_eq]⟩
  rw [tail_snd]
  cases h with
  | nothing => exact Nat.zero_le _
  | exponent hx =>
    rw [(hx.stops rest).1, List.drop_zero, hx.exponent_append, Nat.zero_add]
    exact Nat.le_add_right _ _
  | fraction hf =>
    rw [List.cons_append, hf.fraction_append, List.length_cons]
    omega
  | @fractionExponent f x hf hx =>
    have hfraction : Number.fraction (Byte.ofChar '.' :: f ++ x ++ rest) = f.length + 1 := by
      rw [List.append_assoc, List.cons_append, hf.fraction_append, (hx.stops rest).2]
      omega
    have hbehind : (Byte.ofChar '.' :: f ++ x ++ rest).drop (f.length + 1) = x ++ rest := by
      rw [List.append_assoc, List.cons_append, List.drop_succ_cons, List.drop_left]
    rw [hfraction, hbehind, hx.exponent_append, List.length_append, List.length_cons]
    omega

theorem tail_take (rest : List Byte) : Tail (tail rest).1 (rest.take (tail rest).2) := by
  rw [tail_fst, tail_snd, List.take_add]
  by_cases hf : fraction rest = 0
  · rw [hf, List.take_zero, List.nil_append, List.drop_zero, Nat.zero_add]
    by_cases hx : exponent rest = 0
    · rw [hx, if_pos rfl]
      exact .nothing
    · rw [if_neg hx]
      exact .exponent (exponent_take hx)
  · obtain ⟨f, hdigits, htake⟩ := fraction_take hf
    rw [if_neg (by omega), htake]
    by_cases hx : exponent (rest.drop (fraction rest)) = 0
    · rw [hx, List.take_zero, List.append_nil]
      exact .fraction hdigits
    · exact .fractionExponent hdigits (exponent_take hx)

/-- What stands behind a whole part is nothing or stops its digits. -/
theorem Tail.stops (h : Tail kind text) (rest : List Byte) :
    text = [] ∨ Number.digits Byte.isDecimal (text ++ rest) = 0 := by
  cases h with
  | nothing => exact .inl rfl
  | exponent hx => exact .inr (hx.stops rest).2
  | fraction hf => exact .inr (digits_cons (by decide) _)
  | fractionExponent hf hx => exact .inr (digits_cons (by decide) _)

/-- A point or the letter of an exponent begins what stands behind a whole part. -/
theorem Tail.head (h : Tail kind text) (hne : text ≠ []) :
    ∃ b behind, text = b :: behind
      ∧ (b = Byte.ofChar '.' ∨ b = Byte.ofChar 'e' ∨ b = Byte.ofChar 'E') := by
  cases h with
  | nothing => exact absurd rfl hne
  | exponent hx =>
    obtain ⟨e, behind, htext, he⟩ := hx.exists_cons
    exact ⟨e, behind, htext, .inr he⟩
  | fraction hf => exact ⟨_, _, rfl, .inl rfl⟩
  | fractionExponent hf hx => exact ⟨_, _, rfl, .inl rfl⟩

/-! ### Bases -/

variable {mark : Byte}

/-- Behind the mark of a base the digits of the base are read. -/
theorem Base.afterZero_eq (h : Base mark kind isDigit) (rest : List Byte) :
    afterZero (mark :: rest) = (kind, 1 + digits isDigit rest) := by
  cases h with
  | decimal h | binary h | hexadecimal h => rcases h with rfl | rfl <;> rfl
  | octal h => rcases h with rfl | rfl | rfl <;> rfl
  | digit h =>
    have hne : ∀ b : Byte, b.isOctal = false → (mark == b) = false := by
      refine fun b hb => beq_false_of_ne ?_
      rintro rfl
      rw [hb] at h
      cases h
    simp only [afterZero, hne (Byte.ofChar 'd') rfl, hne (Byte.ofChar 'D') rfl,
      hne (Byte.ofChar 'b') rfl, hne (Byte.ofChar 'B') rfl, hne (Byte.ofChar 'o') rfl,
      hne (Byte.ofChar 'O') rfl, hne (Byte.ofChar '_') rfl, hne (Byte.ofChar 'x') rfl,
      hne (Byte.ofChar 'X') rfl, h, Bool.or_self, Bool.false_eq_true, if_false, if_true]

/-- Without one a zero is read on like any other whole part. -/
theorem afterZero_eq_tail (h : ∀ kind isDigit, ¬ Base mark kind isDigit) (rest : List Byte) :
    afterZero (mark :: rest) = tail (mark :: rest) := by
  rw [afterZero]
  split
  · rename_i hmark
    exact absurd (.decimal (by simpa using hmark)) (h _ _)
  split
  · rename_i hmark
    exact absurd (.binary (by simpa using hmark)) (h _ _)
  split
  · rename_i hmark
    exact absurd (.octal (by simpa [or_assoc] using hmark)) (h _ _)
  split
  · rename_i hmark
    exact absurd (.hexadecimal (by simpa using hmark)) (h _ _)
  split
  · rename_i hmark
    exact absurd (.digit hmark) (h _ _)
  · rfl

/-- A point or the letter of an exponent is no mark. -/
theorem Base.not_tail (h : Base mark kind isDigit) :
    ¬ (mark = Byte.ofChar '.' ∨ mark = Byte.ofChar 'e' ∨ mark = Byte.ofChar 'E') := by
  cases h with
  | decimal h | binary h | octal h | hexadecimal h =>
    intro hmark
    revert h
    rcases hmark with rfl | rfl | rfl <;> decide
  | digit h =>
    rintro (rfl | rfl | rfl) <;> cases h

/-! ### Numbers -/

theorem read_zero (rest : List Byte) :
    read (Byte.ofChar '0' :: rest) = ((afterZero rest).1, (afterZero rest).2 + 1) :=
  rfl

theorem isNonzeroDecimal_of_ne (hdigit : b.isDecimal) (hb : b ≠ Byte.ofChar '0') :
    b.isNonzeroDecimal := by
  have hne : b.toNat ≠ 48 := fun h => hb (UInt8.toNat_inj.mp h)
  simp only [Byte.isDecimal, Byte.isNonzeroDecimal, Bool.and_eq_true, decide_eq_true_eq,
    UInt8.le_iff_toNat_le, UInt8.reduceToNat] at hdigit ⊢
  omega

theorem read_nonzero (hb : b.isNonzeroDecimal) (rest : List Byte) :
    read (b :: rest) = ((tail (rest.drop (digits Byte.isDecimal rest))).1,
      digits Byte.isDecimal rest + (tail (rest.drop (digits Byte.isDecimal rest))).2 + 1) := by
  have hzero : (b == Byte.ofChar '0') = false := by
    refine beq_false_of_ne ?_
    rintro rfl
    cases hb
  rw [read, hzero]
  rfl

theorem Reaches.add {r : Kind × Nat} {n : Nat} (h : Reaches r kind n) (m : Nat) :
    Reaches (r.1, r.2 + m) kind (n + m) :=
  ⟨Nat.add_le_add_right h.1 m, fun hlength => h.2 (Nat.add_right_cancel hlength)⟩

/-- A zero alone is a decimal integer, and so is a zero with nothing of a number behind it. -/
theorem reaches_afterZero (rest : List Byte) : Reaches (afterZero rest) .decimalInteger 0 := by
  refine ⟨Nat.zero_le _, fun hlength => ?_⟩
  cases rest with
  | nil => rfl
  | cons mark rest =>
    by_cases hbase : ∃ kind isDigit, Base mark kind isDigit
    · obtain ⟨kind, isDigit, hbase⟩ := hbase
      rw [hbase.afterZero_eq, Nat.add_comm] at hlength
      cases hlength
    · rw [afterZero_eq_tail fun kind isDigit h => hbase ⟨kind, isDigit, h⟩] at hlength ⊢
      rw [tail_fst, hlength]
      rfl

theorem Tail.reaches_afterZero (h : Tail kind text) (rest : List Byte) :
    Reaches (afterZero (text ++ rest)) kind text.length := by
  by_cases hne : text = []
  · subst hne
    rw [h.kind_eq]
    exact Number.reaches_afterZero rest
  · obtain ⟨b, behind, rfl, hb⟩ := h.head hne
    have hreaches := h.reaches rest
    rw [List.cons_append] at hreaches ⊢
    rwa [afterZero_eq_tail fun kind isDigit hbase => hbase.not_tail hb]

/-- Digits may be followed by more digits, but only where nothing else is behind them. -/
theorem Tail.reaches_afterDigits (h : Tail kind text) {run : List Byte}
    (hrun : Digits Byte.isDecimal run) (rest : List Byte) :
    let digits := digits Byte.isDecimal (run ++ text ++ rest)
    Reaches ((tail ((run ++ text ++ rest).drop digits)).1,
      digits + (tail ((run ++ text ++ rest).drop digits)).2) kind (run.length + text.length) := by
  simp only [List.append_assoc, digits_append hrun, List.drop_length_add_append]
  rcases h.stops rest with rfl | hstops
  · rw [List.nil_append, h.kind_eq]
    refine ⟨by simp only [List.length_nil]; omega, fun hlength => ?_⟩
    have hzero : (tail (rest.drop (Number.digits Byte.isDecimal rest))).2 = 0 := by
      simp only [List.length_nil] at hlength
      omega
    rw [tail_fst, hzero]
    rfl
  · rw [hstops, Nat.add_zero, List.drop_zero, Nat.add_comm, Nat.add_comm run.length]
    exact (h.reaches rest).add run.length

/-- **A text that is a number is reached,** whatever stands behind it, and where the scan goes no
further it finds the kind. -/
theorem Spells.reaches (h : Spells kind text) (rest : List Byte) :
    Reaches (read (text ++ rest)) kind text.length := by
  cases h with
  | based hmark h =>
    rw [List.cons_append, List.cons_append, read_zero, hmark.afterZero_eq, digits_append h]
    refine ⟨?_, fun _ => rfl⟩
    simp only [List.length_cons]
    omega
  | @plain kind whole text hwhole h =>
    cases hwhole with
    | zero => exact (h.reaches_afterZero rest).add 1
    | nonzero hb hrun =>
      rw [List.cons_append, List.cons_append, read_nonzero hb, List.length_cons, List.length_append]
      exact (h.reaches_afterDigits hrun rest).add 1

/-- **What the scan stops at is a number** of the kind that it finds. -/
theorem spells_read (hdigit : b.isDecimal) (rest : List Byte) :
    Spells (read (b :: rest)).1 ((b :: rest).take (read (b :: rest)).2) := by
  by_cases hzero : b = Byte.ofChar '0'
  · subst hzero
    rw [read_zero, List.take_succ_cons]
    cases rest with
    | nil => exact .plain .zero .nothing
    | cons mark rest =>
      by_cases hbase : ∃ kind isDigit, Base mark kind isDigit
      · obtain ⟨kind, isDigit, hbase⟩ := hbase
        rw [hbase.afterZero_eq, Nat.add_comm, List.take_succ_cons]
        exact .based hbase (digits_take isDigit rest)
      · rw [afterZero_eq_tail fun kind isDigit h => hbase ⟨kind, isDigit, h⟩]
        exact .plain .zero (tail_take (mark :: rest))
  · have hb := isNonzeroDecimal_of_ne hdigit hzero
    rw [read_nonzero hb, List.take_succ_cons, List.take_add, ← List.cons_append]
    exact .plain (.nonzero hb (digits_take Byte.isDecimal rest)) (tail_take _)

/-- **What is scanned is the longest number** that begins the bytes. -/
theorem longest_read (hdigit : b.isDecimal) (rest : List Byte) :
    Longest Spells (b :: rest) (read (b :: rest)).1 ((b :: rest).take (read (b :: rest)).2) := by
  have hlength : ((b :: rest).take (read (b :: rest)).2).length = (read (b :: rest)).2 :=
    List.length_take_of_le (within_read b rest).1.2
  constructor
  · exact List.take_prefix _ _
  · exact spells_read hdigit rest
  · rintro kind text h ⟨behind, hbehind⟩
    rw [hlength, ← hbehind]
    exact (h.reaches behind).1
  · intro kind h
    have hreaches := (h.reaches ((b :: rest).drop (read (b :: rest)).2)).2
    rw [List.take_append_drop, hlength] at hreaches
    exact (hreaches rfl).symm

/-- Half an exponent is left to the token behind the number. -/
example : read (Byte.ofString "1_0.5e+x") = (.float, 5) := by decide

end Number

end ScriptLexer
