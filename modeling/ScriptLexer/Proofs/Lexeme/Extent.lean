import ScriptLexer.Lexeme
import ScriptLexer.Proofs.Token.Punctuator

/-!
# How far lexemes reach

A lexeme says how many bytes it has. It has at least one, and no more than there are; what it says
about the inside of an opener lies within the opener; and the kind of a token that it describes is
never one of the two that stand for no bytes of the script. `Lexeme.Fits` collects that, so that the
reader of tokens need not look at a lexeme's rules again.

## Main results

* `Lexeme.fits_read` — what is read at a byte fits the bytes
-/

namespace ScriptLexer

/-- A kind that stands for bytes of a script: not the one that continues without a token, and not
the end of the script. -/
def Kind.OfBytes (k : Kind) : Prop :=
  k ≠ .continuation ∧ k ≠ .endOfInput

/-! ### Numbers -/

namespace Number

theorem sign_le (rest : List Byte) : sign rest ≤ rest.length := by
  rw [sign.eq_def]
  split <;> simp

theorem digits_le (isDigit : Byte → Bool) (rest : List Byte) : digits isDigit rest ≤ rest.length :=
  (List.takeWhile_prefix _).length_le

theorem exponent_le (rest : List Byte) : exponent rest ≤ rest.length := by
  cases rest with
  | nil => exact Nat.le_refl _
  | cons b rest =>
    have hsign := sign_le rest
    have hdigits := digits_le Byte.isDecimal (rest.drop (sign rest))
    rw [List.length_drop] at hdigits
    simp only [exponent, List.length_cons]
    split <;> omega

theorem fraction_le (rest : List Byte) : fraction rest ≤ rest.length := by
  rw [fraction.eq_def]
  split
  · rename_i rest
    have hdigits := digits_le Byte.isDecimal rest
    rw [List.length_cons]
    split <;> omega
  · exact Nat.zero_le _

/-- A number's kind stands for bytes, and the number reaches no further than the bytes. -/
def Within (rest : List Byte) (r : Kind × Nat) : Prop :=
  r.1.OfBytes ∧ r.2 ≤ rest.length

theorem within_tail (rest : List Byte) : Within rest (tail rest) := by
  have hfraction := fraction_le rest
  have hexponent := exponent_le (rest.drop (fraction rest))
  rw [List.length_drop] at hexponent
  rw [tail]
  split
  · exact ⟨by simp [Kind.OfBytes], Nat.zero_le _⟩
  · exact ⟨by simp [Kind.OfBytes], by simp only; omega⟩

theorem within_afterZero (rest : List Byte) : Within rest (afterZero rest) := by
  cases rest with
  | nil => exact ⟨by simp [Kind.OfBytes, afterZero], Nat.le_refl _⟩
  | cons b rest =>
    have hdigits : ∀ kind isDigit, kind.OfBytes →
        Within (b :: rest) (kind, 1 + digits isDigit rest) := by
      intro kind isDigit hk
      have := digits_le isDigit rest
      exact ⟨hk, by simp only [List.length_cons]; omega⟩
    rw [afterZero]
    split
    · exact hdigits _ _ (by simp [Kind.OfBytes])
    split
    · exact hdigits _ _ (by simp [Kind.OfBytes])
    split
    · exact hdigits _ _ (by simp [Kind.OfBytes])
    split
    · exact hdigits _ _ (by simp [Kind.OfBytes])
    split
    · exact hdigits _ _ (by simp [Kind.OfBytes])
    · exact within_tail (b :: rest)

theorem within_afterNonzero (rest : List Byte) : Within rest (afterNonzero rest) := by
  have hdigits := digits_le Byte.isDecimal rest
  have htail := within_tail (rest.drop (digits Byte.isDecimal rest))
  rw [Within, List.length_drop] at htail
  exact ⟨htail.1, by simp only [afterNonzero]; omega⟩

theorem within_read (first : Byte) (rest : List Byte) :
    Within (first :: rest) (read (first :: rest)) ∧ 0 < (read (first :: rest)).2 := by
  have hbody : Within rest
      (if first == Byte.ofChar '0' then afterZero rest else afterNonzero rest) := by
    split
    · exact within_afterZero rest
    · exact within_afterNonzero rest
  exact ⟨⟨hbody.1, Nat.succ_le_succ hbody.2⟩, Nat.succ_pos _⟩

end Number

/-! ### Names and variables -/

namespace Name

theorem run_le (rest : List Byte) : run rest ≤ rest.length :=
  (List.takeWhile_prefix _).length_le

theorem run_pos {rest : List Byte} (h : startsHere rest) : 0 < run rest := by
  cases rest with
  | nil => cases h
  | cons b rest =>
    have hb : Byte.isIdentContinue b := by
      rw [startsHere] at h
      simp [Byte.isIdentContinue, h]
    rw [run, List.takeWhile_cons_of_pos hb]
    exact Nat.succ_pos _

/-- A suffix is a byte behind the run. -/
theorem run_lt_of_hasSuffix {defining : Bool} {rest : List Byte}
    (h : hasSuffix defining (rest.drop (run rest))) : run rest < rest.length := by
  refine Nat.lt_of_not_le fun hle => ?_
  rw [List.drop_of_length_le hle] at h
  cases h

theorem within_read (defining : Bool) {rest : List Byte} (h : startsHere rest) :
    (read defining rest).1.OfBytes ∧ 0 < (read defining rest).2
      ∧ (read defining rest).2 ≤ rest.length := by
  have hpos := run_pos h
  have hle := run_le rest
  have hshape : (shape defining rest).1.OfBytes ∧ 0 < (shape defining rest).2
      ∧ (shape defining rest).2 ≤ rest.length := by
    rw [shape]
    split
    · exact ⟨by simp [Kind.OfBytes], hpos, hle⟩
    split
    · rename_i hsuffix
      exact ⟨by simp [Kind.OfBytes], Nat.succ_pos _, run_lt_of_hasSuffix hsuffix⟩
    · exact ⟨by simp [Kind.OfBytes], hpos, hle⟩
  have hlength : (read defining rest).2 = (shape defining rest).2 := by
    simp only [read]
    split <;> rfl
  rw [hlength]
  refine ⟨?_, hshape.2⟩
  simp only [read]
  split
  · simp [Kind.OfBytes]
  · exact hshape.1

end Name

namespace Variable

/-- What a sigil begins lies within a number of bytes, and has at least one. -/
def Within (n : Nat) : Variable → Prop
  | named kind length => kind.OfBytes ∧ 0 < length ∧ length ≤ n
  | nameless _ length => 0 < length ∧ length ≤ n

theorem within_ofSigil {kind : Kind} {k : Nat} (sigil : String) (hkind : kind.OfBytes) (hk : 0 < k)
    (rest : List Byte) : (ofSigil sigil k kind rest).Within (rest.length + k) := by
  have hrun := Name.run_le rest
  rw [ofSigil]
  split
  · exact ⟨hkind, Nat.add_pos_left hk _, by omega⟩
  · exact ⟨hk, Nat.le_add_left _ _⟩

theorem within_read? {rest : List Byte} {v : Variable} (h : read? rest = some v) :
    v.Within rest.length := by
  have hkind : ∀ k, k = Kind.globalVariable ∨ k = .classVariable ∨ k = .instanceVariable →
      k.OfBytes := by
    rintro k (rfl | rfl | rfl) <;> simp [Kind.OfBytes]
  rw [read?.eq_def] at h
  split at h <;> cases h
  · exact within_ofSigil "$" (hkind _ (.inl rfl)) Nat.one_pos _
  · exact within_ofSigil "@@" (hkind _ (.inr (.inl rfl))) Nat.two_pos _
  · exact within_ofSigil "@" (hkind _ (.inr (.inr rfl))) Nat.one_pos _

end Variable

theorem Introducer.within_read? {rest : List Byte} {i : Introducer} (h : read? rest = some i) :
    match i with
    | .statements => 2 ≤ rest.length
    | .variableName kind length => kind.OfBytes ∧ 0 < length ∧ 1 + length ≤ rest.length := by
  rw [read?.eq_def] at h
  split at h
  · cases h
    simp
  · rename_i rest _
    split at h
    · rename_i hv
      cases h
      obtain ⟨hkind, hpos, hle⟩ := Variable.within_read? hv
      exact ⟨hkind, hpos, by rw [List.length_cons]; omega⟩
    · cases h
  · cases h

/-! ### Openers -/

theorem Delimiter.within_read? {rest : List Byte} {d : Delimiter} (h : read? rest = some d) :
    0 < d.length ∧ d.length ≤ rest.length := by
  have hbyte : ∀ {verbatim letters rest}, ofPunctuation? verbatim letters rest = some d →
      0 < d.length ∧ d.length ≤ rest.length + letters := by
    intro verbatim letters rest h
    rw [ofPunctuation?.eq_def] at h
    split at h
    · cases h
    · split at h <;> cases h
      exact ⟨Nat.succ_pos _, by simp only [List.length_cons]; omega⟩
  rw [read?.eq_def] at h
  split at h
  · exact hbyte h
  · exact hbyte h
  · exact hbyte h

namespace HeredocStart

/-- The identifier of an opener has a byte and lies within the opener, and the opener within a
number of bytes. -/
def Within (n : Nat) : HeredocStart → Prop
  | absent => True
  | broken length => length ≤ n
  | accepted opener =>
    0 < opener.size ∧ opener.offset + opener.size ≤ opener.length ∧ opener.length ≤ n

theorem within_quoted (indented : Bool) (quote : Byte) (offset : Nat) (rest : List Byte) :
    (quoted indented quote offset rest).Within (rest.length + 1 + offset) := by
  have hle : (rest.takeWhile fun b => b != quote && b != Byte.newline).length ≤ rest.length :=
    (List.takeWhile_prefix _).length_le
  simp only [quoted]
  split
  · rename_i hclosed
    obtain ⟨hsize, hquote⟩ := hclosed
    have hlt : (rest.takeWhile fun b => b != quote && b != Byte.newline).length < rest.length := by
      refine Nat.lt_of_not_le fun hge => ?_
      rw [List.drop_of_length_le hge] at hquote
      cases hquote
    refine ⟨Nat.pos_of_ne_zero hsize, ?_, ?_⟩ <;> simp only <;> omega
  · simp only [Within]
    omega

theorem within_identifier (indented : Bool) (offset : Nat) (rest : List Byte) :
    (identifier indented offset rest).Within (rest.length + offset) := by
  cases rest with
  | nil => trivial
  | cons b rest =>
    rw [identifier]
    split
    · exact within_quoted indented b offset rest
    split
    · rename_i hb
      have hle : ((b :: rest).takeWhile Byte.isIdentContinue).length ≤ (b :: rest).length :=
        (List.takeWhile_prefix _).length_le
      refine ⟨?_, Nat.le_refl _, by simp only; omega⟩
      simp only [List.takeWhile_cons_of_pos hb]
      exact Nat.succ_pos _
    · trivial

theorem within_read (rest : List Byte) : (read rest).Within rest.length := by
  rw [read.eq_def]
  split
  · exact within_identifier true 1 _
  · exact within_identifier true 1 _
  · exact within_identifier false 0 _

end HeredocStart

/-! ### Lexemes -/

namespace Lexeme

/-- What a lexeme says about `n` bytes is true of some of them, the first included. -/
def Fits (n : Nat) : Lexeme → Prop
  | bare kind length | spelled kind length => kind.OfBytes ∧ 0 < length ∧ length ≤ n
  | quoted _ _ opener => 0 < opener ∧ opener ≤ n
  | heredoc opener =>
    0 < opener.size ∧ opener.offset + opener.size ≤ opener.length ∧ 2 + opener.length ≤ n
  | malformed _ length _ => 0 < length ∧ length ≤ n

/-- The number of bytes of a lexeme; of a literal with text, those of its opener. -/
def extent : Lexeme → Nat
  | bare _ length | spelled _ length | malformed _ length _ => length
  | quoted _ _ opener => opener
  | heredoc opener => 2 + opener.length

theorem Fits.extent_le {lexeme : Lexeme} {n : Nat} (h : lexeme.Fits n) : lexeme.extent ≤ n := by
  cases lexeme with
  | bare kind length | spelled kind length => exact h.2.2
  | quoted isVerbatim close opener => exact h.2
  | heredoc opener => exact h.2.2
  | malformed cause length shown => exact h.2

variable (l : Lookback) (rest : List Byte)

theorem fits_punctuation (b : Byte) : (punctuation b rest).Fits (rest.length + 1) := by
  rw [punctuation]
  split
  · rename_i p hp
    exact ⟨by simp [Kind.OfBytes], Punctuator.length_bytes_pos p,
      (Punctuator.bytes_prefix_of_read? hp).length_le⟩
  · exact ⟨Nat.one_pos, Nat.le_add_left 1 _⟩

theorem fits_signed (sign : Byte) : (signed l sign rest).Fits (rest.length + 1) := by
  rw [signed]
  split
  · rename_i hdigit
    cases rest with
    | nil => cases hdigit
    | cons first rest =>
      obtain ⟨hkind, hle⟩ := (Number.within_read first rest).1
      exact ⟨hkind, Nat.succ_pos _, Nat.succ_le_succ hle⟩
  · exact fits_punctuation rest sign

theorem fits_less : (less l rest).Fits (rest.length + 1) := by
  rw [less.eq_def]
  split
  · rename_i behind
    have hwithin := HeredocStart.within_read behind
    split
    · exact fits_punctuation _ 0x3C
    split
    · rename_i opener hopener
      rw [hopener] at hwithin
      obtain ⟨hsize, hinside, hle⟩ := hwithin
      exact ⟨hsize, hinside, by simp only [List.length_cons]; omega⟩
    · rename_i length hlength
      rw [hlength] at hwithin
      exact ⟨Nat.succ_pos _, Nat.add_le_add_right hwithin 2⟩
    · exact fits_punctuation _ 0x3C
  · exact fits_punctuation rest 0x3C

theorem fits_percent : (percent l rest).Fits (rest.length + 1) := by
  rw [percent]
  split
  · split
    · rename_i hd
      exact ⟨Nat.succ_pos _, Nat.succ_le_succ (Delimiter.within_read? hd).2⟩
    · exact fits_punctuation rest 0x25
  · exact fits_punctuation rest 0x25

theorem fits_equals (lineStart : Bool) : (equals lineStart rest).Fits (rest.length + 1) := by
  rw [equals]
  split
  · exact ⟨Nat.succ_pos _, Nat.le_refl _⟩
  · exact fits_punctuation rest 0x3D

theorem fits_variableName (sigil : Byte) : (variableName sigil rest).Fits (rest.length + 1) := by
  rw [variableName]
  split
  · rename_i h
    exact Variable.within_read? h
  · rename_i h
    exact Variable.within_read? h
  · exact fits_punctuation rest sigil

theorem fits_name {rest : List Byte} (h : Name.startsHere rest) :
    (name l rest).Fits rest.length := by
  have hwithin := Name.within_read l.defining h
  rw [name]
  split
  · rename_i hread
    rw [hread] at hwithin
    exact hwithin
  · rename_i hread
    rw [hread] at hwithin
    exact hwithin

/-- **What is read at a byte fits the bytes.** -/
theorem fits_read (lineStart : Bool) (b : Byte) :
    (read l lineStart b rest).Fits (rest.length + 1) := by
  have hnewLine : Kind.newLine.OfBytes := by simp [Kind.OfBytes]
  have hone : 1 ≤ rest.length + 1 := Nat.le_add_left 1 _
  rw [read.eq_def]
  split
  · rename_i hb
    exact fits_name l (show Name.startsHere (b :: rest) from hb)
  split
  · obtain ⟨⟨hkind, hle⟩, hpos⟩ := Number.within_read b rest
    exact ⟨hkind, hpos, hle⟩
  split
  · exact ⟨hnewLine, Nat.one_pos, hone⟩
  · exact ⟨hnewLine, Nat.one_pos, hone⟩
  · exact ⟨Nat.one_pos, hone⟩
  · exact ⟨Nat.one_pos, hone⟩
  · exact fits_variableName rest _
  · exact fits_variableName rest _
  · exact fits_percent l rest
  · exact fits_signed l rest _
  · exact fits_signed l rest _
  · exact fits_less l rest
  · exact fits_equals rest lineStart
  · exact ⟨Nat.one_pos, hone⟩
  · exact fits_punctuation rest b

end Lexeme

end ScriptLexer
