import ScriptLexer.Proofs.Lexeme.Numeral
import ScriptLexer.Proofs.Token.Punctuator

/-!
# The longest operator

The operators are read by branching on one byte after another, and their texts stand in a table.
Here the branches are shown to find the longest text of the table, with any bytes behind it.

As with numbers, the point is that no text is missed (`Punctuator.reaches`): whatever stands behind
the text of a punctuator, a punctuator is read that is at least as long. Only six texts have two
bytes and are longer with a third, an equals sign, and three more are with a third of another sort;
for any other text it is enough that it is read itself, or that it is a single byte.

## Main definitions

* `Kind.SpellsOperator` — the texts of operators, by their kinds

## Main results

* `Punctuator.longest_read?` — the punctuator that is read is the longest operator
-/

namespace ScriptLexer

/-- The texts of operators, by their kinds: the lexemes that belong neither to a reserved word nor
to an interpolation. -/
def Kind.SpellsOperator (kind : Kind) (text : List Byte) : Prop :=
  kind.lexeme?.map Byte.ofString = some text ∧ kind.isKeyword = false
    ∧ kind ≠ .insertBegin ∧ kind ≠ .insertEnd

/-- The operators are the punctuators. -/
theorem Kind.spellsOperator_iff {kind : Kind} {text : List Byte} :
    kind.SpellsOperator text ↔ ∃ p, kind = .punctuator p ∧ p.bytes = text := by
  cases kind <;> simp [SpellsOperator, lexeme?, isKeyword, Punctuator.bytes]

namespace Punctuator

variable {bytes : List Byte} {p q : Punctuator} {b : Byte}

/-- A punctuator alone is read as itself. -/
theorem read?_bytes (p : Punctuator) : read? p.bytes = some p := by
  cases p <;> rfl

/-- No two punctuators have one text. -/
theorem bytes_injective (h : p.bytes = q.bytes) : p = q := by
  have hp := read?_bytes p
  rw [h, read?_bytes q] at hp
  exact (Option.some.inj hp).symm

/-- Where a punctuator may begin, one is read. -/
theorem exists_read? (h : q.bytes.head? = some b) (rest : List Byte) :
    ∃ p, read? (b :: rest) = some p := by
  cases q <;> cases h <;> exact ⟨_, rfl⟩

theorem le_length_withAssign {n : Nat} {plain assigning : Punctuator}
    (hp : n ≤ plain.bytes.length) (ha : n ≤ assigning.bytes.length) (rest : List Byte) :
    n ≤ (withAssign plain assigning rest).bytes.length := by
  rw [withAssign.eq_def]
  split
  · exact ha
  · exact hp

/-- **No text is missed.** Behind the text of a punctuator, whatever follows, at least as long a one
is read. -/
theorem reaches (q : Punctuator) (rest : List Byte) :
    ∃ p, read? (q.bytes ++ rest) = some p ∧ q.bytes.length ≤ p.bytes.length := by
  cases q with
  | andAnd | orOr | power | shiftLeft | shiftRight | elementRef =>
    -- An equals sign may be third.
    exact ⟨_, rfl, le_length_withAssign (Nat.le_refl 2) (Nat.le_succ 2) rest⟩
  | twoDots =>
    refine ⟨afterDot (0x2E :: rest), rfl, ?_⟩
    rw [afterDot.eq_def]
    split
    · exact Nat.le_succ 2
    · exact Nat.le_refl 2
    · rename_i hother
      exact absurd rfl (hother rest)
  | equal =>
    refine ⟨afterEqual (0x3D :: rest), rfl, ?_⟩
    rw [afterEqual.eq_def]
    split
    · exact Nat.le_succ 2
    · exact Nat.le_refl 2
    · exact Nat.le_refl 2
    · exact Nat.le_refl 2
    · rename_i hother _ _
      exact absurd rfl (hother rest)
  | lessEqual =>
    refine ⟨afterLess (0x3D :: rest), rfl, ?_⟩
    rw [afterLess.eq_def]
    split
    · rename_i hless
      cases hless
    · exact Nat.le_succ 2
    · exact Nat.le_refl 2
    · rename_i hother
      exact absurd rfl (hother rest)
  | _ =>
    first
    | exact ⟨_, by rfl, Nat.le_refl _⟩
    | exact ⟨_, rfl, length_bytes_pos _⟩

/-- **The punctuator that is read is the longest operator.** -/
theorem longest_read? (h : read? bytes = some p) :
    Longest Kind.SpellsOperator bytes (.punctuator p) p.bytes where
  begins := bytes_prefix_of_read? h
  spells := Kind.spellsOperator_iff.mpr ⟨p, rfl, rfl⟩
  longest := by
    intro kind text hspells hbegins
    obtain ⟨q, -, rfl⟩ := Kind.spellsOperator_iff.mp hspells
    obtain ⟨rest, rfl⟩ := hbegins
    obtain ⟨p', hp', hle⟩ := reaches q rest
    rw [h] at hp'
    cases hp'
    exact hle
  unique := by
    intro kind hspells
    obtain ⟨q, rfl, hbytes⟩ := Kind.spellsOperator_iff.mp hspells
    rw [bytes_injective hbytes]

end Punctuator

end ScriptLexer
