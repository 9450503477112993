import ScriptLexer.Lexeme
import ScriptLexer.Proofs.Token.Keyword
import Mathlib.Data.List.TakeWhile

/-!
# How a name is divided from what is behind it

A name is the longest run of name bytes, and one byte behind it at most. `Name.Division` says so of
the bytes, without an order in which they are looked at, and it is what the scan of a name comes to.

What the text of a name is looked up as is this whole text. So a word that is reserved with its mark
is found (`defined?`), and a reserved word that takes a mark is not reserved any more (`nil?`).

## Main definitions

* `Name.TakesMark` — the byte behind a run that belongs to the name
* `Name.Division` — the run, the suffix and what is behind them
* `Name.unreserved` — the kind of a name that is not reserved

## Main results

* `Name.exists_division` — the scan of a name finds its division
* `Lexeme.read_division` — the lexeme of a name, by the lookup of its text
-/

namespace ScriptLexer

/-! ### Bytes that begin names -/

namespace Byte

variable {b : Byte}

theorem ne_of_isIdentStart {c : Byte} (h : b.isIdentStart) (hc : c.isIdentStart = false) :
    b ≠ c := by
  rintro rfl
  rw [hc] at h
  cases h

theorem isBlank_of_isIdentStart (h : b.isIdentStart) : b.isBlank = false := by
  have hne : ∀ {c : Byte}, c.isIdentStart = false → (b == c) = false := fun hc =>
    beq_eq_false_iff_ne.mpr (ne_of_isIdentStart h hc)
  simp [isBlank, hne (c := 0x09) rfl, hne (c := 0x0B) rfl, hne (c := 0x0C) rfl,
    hne (c := 0x0D) rfl, hne (c := 0x20) rfl]

/-- A name that does not begin in upper case begins in lower case or with an underscore. -/
theorem isUppercase_eq_false_iff (h : b.isIdentStart) :
    b.isUppercase = false ↔ b.isLowercase ∨ b = ofChar '_' := by
  constructor
  · intro hupper
    simpa [isIdentStart, isLetter, hupper] using h
  · rintro (hlower | rfl)
    · simp only [isLowercase, isUppercase, Bool.and_eq_true, decide_eq_true_eq,
        Bool.and_eq_false_imp, decide_eq_false_iff_not] at hlower ⊢
      intro _ hle
      exact absurd (UInt8.le_trans hlower.1 hle) (by decide)
    · decide

end Byte

namespace Name

/-! ### Divisions -/

/-- Behind a run of name bytes that begins with `first`, the byte `mark` belongs to the name:
a question or exclamation mark, unless an equals sign is behind it; and where a method is being
defined an equals sign, unless an operator goes on behind it. -/
inductive TakesMark (defining : Bool) (first : Byte) : (mark : Byte) → (behind : List Byte) → Prop
  | ofTest {mark : Byte} {behind : List Byte} (hfirst : first.isLowercase ∨ first = Byte.ofChar '_')
      (hmark : mark = Byte.ofChar '?' ∨ mark = Byte.ofChar '!')
      (hbehind : behind.head? ≠ some (Byte.ofChar '=')) : TakesMark defining first mark behind
  | ofSetter {behind : List Byte} (hfirst : first.isLowercase ∨ first = Byte.ofChar '_')
      (hdefining : defining)
      (hbehind : ∀ b ∈ behind.head?,
        b ≠ Byte.ofChar '=' ∧ b ≠ Byte.ofChar '~' ∧ b ≠ Byte.ofChar '>') :
      TakesMark defining first (Byte.ofChar '=') behind

/-- The suffix of a name: one byte if the name takes it, and otherwise nothing. -/
inductive Suffix (defining : Bool) (first : Byte) : (suffix behind : List Byte) → Prop
  | taken {mark : Byte} {behind : List Byte} (h : TakesMark defining first mark behind) :
      Suffix defining first [mark] behind
  | absent {behind : List Byte}
      (h : ∀ mark behind', behind = mark :: behind' → ¬ TakesMark defining first mark behind') :
      Suffix defining first [] behind

/-- The bytes begin with a name whose first byte is `first`: the longest run of name bytes, and the
suffix that it takes. -/
structure Division (defining : Bool) (first : Byte) (bytes run suffix behind : List Byte) :
    Prop where
  bytes_eq : bytes = run ++ (suffix ++ behind)
  continues : ∀ b ∈ run, b.isIdentContinue
  stops : ∀ b ∈ (suffix ++ behind).head?, ¬ b.isIdentContinue
  suffix : Suffix defining first suffix behind

/-- The kind of a name that begins with `first` and is not reserved. -/
def unreserved (first : Byte) (suffix : List Byte) : Kind :=
  if first.isUppercase then .constant
  else if suffix = [] then .localVariable
  else .methodName

variable {defining : Bool} {first mark : Byte} {bytes rest run suffix behind : List Byte}

theorem isKeyword_unreserved (first : Byte) (suffix : List Byte) :
    (unreserved first suffix).isKeyword = false := by
  rw [unreserved]
  split
  · rfl
  · split <;> rfl

theorem Division.take_eq (h : Division defining first bytes run suffix behind) :
    bytes.take (run ++ suffix).length = run ++ suffix := by
  rw [h.bytes_eq, ← List.append_assoc, List.take_left]

/-! ### The scan of a name -/

theorem continuesOperator_eq_false_iff (rest : List Byte) :
    continuesOperator rest = false ↔ ∀ b ∈ rest.head?,
      b ≠ Byte.ofChar '=' ∧ b ≠ Byte.ofChar '~' ∧ b ≠ Byte.ofChar '>' := by
  cases rest with
  | nil => simp [continuesOperator]
  | cons b rest => simp [continuesOperator, and_assoc]

/-- A name takes the mark that is a suffix, unless it begins in upper case. -/
theorem takesMark_iff (hfirst : first.isIdentStart) :
    TakesMark defining first mark behind
      ↔ first.isUppercase = false ∧ hasSuffix defining (mark :: behind) := by
  rw [Byte.isUppercase_eq_false_iff hfirst, hasSuffix]
  constructor
  · rintro (⟨hfirst, hmark, hbehind⟩ | ⟨hfirst, hdefining, hbehind⟩)
    · refine ⟨hfirst, ?_⟩
      rw [if_pos (by simpa using hmark)]
      simpa using hbehind
    · refine ⟨hfirst, ?_⟩
      rw [if_neg (by decide), hdefining, (continuesOperator_eq_false_iff behind).mpr hbehind]
      rfl
  · rintro ⟨hfirst, hsuffix⟩
    split at hsuffix
    · rename_i hmark
      exact .ofTest hfirst (by simpa using hmark) (by simpa using hsuffix)
    · simp only [Bool.and_eq_true, beq_iff_eq, Bool.not_eq_true',
        continuesOperator_eq_false_iff] at hsuffix
      obtain ⟨⟨rfl, hdefining⟩, hbehind⟩ := hsuffix
      exact .ofSetter hfirst hdefining hbehind

/-- **The scan of a name finds its division.** -/
theorem exists_division (defining : Bool) (hfirst : first.isIdentStart) (rest : List Byte) :
    ∃ run suffix behind, Division defining first (first :: rest) run suffix behind
      ∧ shape defining (first :: rest) = (unreserved first suffix, (run ++ suffix).length) := by
  obtain ⟨word, after, hword, hafter⟩ :
      ∃ word after, (first :: rest).takeWhile Byte.isIdentContinue = word
        ∧ (first :: rest).dropWhile Byte.isIdentContinue = after := ⟨_, _, rfl, rfl⟩
  have hbytes : first :: rest = word ++ after := by
    rw [← hword, ← hafter, List.takeWhile_append_dropWhile]
  have hcontinues : ∀ b ∈ word, b.isIdentContinue := fun b hb =>
    List.mem_takeWhile_imp (hword ▸ hb)
  have hstops : ∀ b ∈ after.head?, ¬ b.isIdentContinue := by
    intro b hb
    have hnot := List.head?_dropWhile_not Byte.isIdentContinue (first :: rest)
    rw [hafter, Option.mem_def.mp hb] at hnot
    exact Bool.eq_false_iff.mp hnot
  have hrun : Name.run (first :: rest) = word.length := congrArg List.length hword
  have hdrop : (first :: rest).drop word.length = after := by
    rw [hbytes, List.drop_left]
  have hhead : (first :: rest).head?.any Byte.isUppercase = first.isUppercase := rfl
  rw [shape, hrun, hdrop, hhead]
  -- Without a suffix the name ends with its run.
  have habsent : (∀ mark behind, after = mark :: behind → ¬ TakesMark defining first mark behind) →
      Division defining first (first :: rest) word [] after :=
    fun h => ⟨hbytes, hcontinues, hstops, .absent h⟩
  cases hupper : first.isUppercase with
  | true =>
    refine ⟨word, [], after, habsent fun mark behind _ h => ?_, ?_⟩
    · rw [takesMark_iff hfirst, hupper] at h
      cases h.1
    · simp [unreserved, hupper]
  | false =>
    cases hsuffix : hasSuffix defining after with
    | false =>
      refine ⟨word, [], after, habsent fun mark behind hmark h => ?_, ?_⟩
      · rw [takesMark_iff hfirst, ← hmark, hsuffix] at h
        cases h.2
      · simp [unreserved, hupper]
    | true =>
      cases after with
      | nil => cases hsuffix
      | cons mark behind =>
        have htakes := (takesMark_iff hfirst).mpr ⟨hupper, hsuffix⟩
        refine ⟨word, [mark], behind, ⟨hbytes, hcontinues, hstops, .taken htakes⟩, ?_⟩
        simp [unreserved, hupper]

end Name

/-- **The lexeme of a name, by the lookup of its text.** -/
theorem Lexeme.read_division (l : Lookback) (lineStart : Bool) {first : Byte}
    (hfirst : first.isIdentStart) (rest : List Byte) :
    ∃ run suffix behind, Name.Division l.defining first (first :: rest) run suffix behind
      ∧ read l lineStart first rest = match Keyword.ofBytes? (run ++ suffix) with
        | some k => .bare (.keyword k) (run ++ suffix).length
        | none => .spelled (Name.unreserved first suffix) (run ++ suffix).length := by
  obtain ⟨run, suffix, behind, hdivision, hshape⟩ := Name.exists_division l.defining hfirst rest
  refine ⟨run, suffix, behind, hdivision, ?_⟩
  rw [read.eq_def, if_pos hfirst, name, Name.read, hshape]
  simp only [hdivision.take_eq]
  cases hfound : Keyword.ofBytes? (run ++ suffix) with
  | some k => rfl
  | none =>
    have hkind := Name.isKeyword_unreserved first suffix
    revert hkind
    cases Name.unreserved first suffix with
    | keyword k => exact fun hkind => by cases hkind
    | _ => exact fun _ => rfl

end ScriptLexer
