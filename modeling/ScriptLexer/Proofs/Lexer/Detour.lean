import ScriptLexer.Proofs.Lexeme.BlockComment
import ScriptLexer.Proofs.Lexeme.Form
import ScriptLexer.Proofs.Lexeme.Operator
import ScriptLexer.Proofs.Lexer.Percent

/-!
# What is read in place of an operator

Four constructs begin with the bytes of an operator: a number with a sign, a heredoc, a percent
literal and a block comment. When one of them is read instead of the operator is said here by the
bytes and by the lookback, without the functions that try. Where none of the four opens, none of the
rules but that of the punctuators applies, and what was looked at in vain is not missed: the bytes
begin an operator as if nothing had been tried.

## Main definitions

* `HeredocStart.Follows` — what makes a heredoc of two less-than signs
* `Detour.Opens` — what makes one of the four of the bytes of an operator

## Main results

* `Lexeme.read_of_forall_not_opens` — where none of them opens, the punctuator is read
-/

namespace ScriptLexer

/-! ### Openers of heredocs -/

namespace HeredocStart

/-- An identifier of a heredoc begins with a byte: one of a name, or a quote. -/
def Identifies (b : Byte) : Prop :=
  b.isIdentContinue ∨ b = Byte.ofChar '\'' ∨ b = Byte.ofChar '"'

/-- An identifier stands at the front of bytes, or behind a hyphen or a tilde there. -/
def Follows (behind : List Byte) : Prop :=
  (∃ b ∈ behind.head?, Identifies b) ∨
    ((behind.head? = some (Byte.ofChar '-') ∨ behind.head? = some (Byte.ofChar '~'))
      ∧ ∃ b ∈ behind.tail.head?, Identifies b)

theorem quoted_ne_absent (indented : Bool) (quote : Byte) (offset : Nat) (rest : List Byte) :
    quoted indented quote offset rest ≠ .absent := by
  rw [quoted]
  intro h
  split at h <;> cases h

theorem identifier_eq_absent_iff (indented : Bool) (offset : Nat) (rest : List Byte) :
    identifier indented offset rest = .absent ↔ ¬ ∃ b ∈ rest.head?, Identifies b := by
  cases rest with
  | nil => simp [identifier]
  | cons b rest =>
    have hhead : (∃ b' ∈ (b :: rest).head?, Identifies b') ↔ Identifies b := by simp
    rw [hhead, identifier]
    split
    · rename_i hquote
      rw [Bool.or_eq_true, beq_iff_eq, beq_iff_eq] at hquote
      exact iff_of_false (quoted_ne_absent indented b offset rest) fun h => h (.inr hquote)
    rename_i hquote
    rw [Bool.or_eq_true, beq_iff_eq, beq_iff_eq] at hquote
    split
    · exact iff_of_false (fun h => by cases h) fun h => h (.inl ‹_›)
    · exact iff_of_true rfl fun h => h.elim ‹_› hquote

/-- **No heredoc opens where no identifier follows.** -/
theorem read_eq_absent_iff (behind : List Byte) : read behind = .absent ↔ ¬ Follows behind := by
  have hindent : ∀ mark : Byte, mark = Byte.ofChar '-' ∨ mark = Byte.ofChar '~' →
      ¬ ∃ b ∈ some mark, Identifies b := by
    rintro mark hmark ⟨b, hb, hidentifies⟩
    cases hb
    rcases hmark with rfl | rfl <;> exact absurd hidentifies (by unfold Identifies; decide)
  rw [read.eq_def, Follows]
  split
  · rename_i rest
    rw [identifier_eq_absent_iff, not_iff_not]
    exact ⟨fun h => .inr ⟨.inl rfl, h⟩, fun h => (h.resolve_left (hindent _ (.inl rfl))).2⟩
  · rename_i rest
    rw [identifier_eq_absent_iff, not_iff_not]
    exact ⟨fun h => .inr ⟨.inr rfl, h⟩, fun h => (h.resolve_left (hindent _ (.inr rfl))).2⟩
  · rename_i hhyphen htilde
    rw [identifier_eq_absent_iff, not_iff_not]
    refine ⟨.inl, fun h => h.resolve_right ?_⟩
    rintro ⟨hhead | hhead, -⟩
    · obtain ⟨rest, rfl⟩ := List.head?_eq_some_iff.mp hhead
      exact hhyphen rest rfl
    · obtain ⟨rest, rfl⟩ := List.head?_eq_some_iff.mp hhead
      exact htilde rest rfl

theorem follows_of_read {behind : List Byte} {start : HeredocStart} (h : read behind = start)
    (hstart : start ≠ .absent) : Follows behind := by
  by_contra hfollows
  exact hstart (h.symm.trans ((read_eq_absent_iff behind).mpr hfollows))

end HeredocStart

/-! ### Detours -/

/-- What may be read in place of an operator. -/
inductive Detour where
  | signedNumber
  | heredoc
  | percentLiteral
  | blockComment
  deriving DecidableEq, Repr

/-- What makes a detour of the bytes of an operator: the bytes behind them, and with all but the
block comment the token in front of them. -/
inductive Detour.Opens (l : Lookback) (lineStart : Bool) : Detour → List Byte → Prop
  | signedNumber {sign digit : Byte} {rest : List Byte} (habuts : l.abuts = false)
      (hsign : sign = Byte.ofChar '+' ∨ sign = Byte.ofChar '-') (hdigit : digit.isDecimal) :
      Opens l lineStart .signedNumber (sign :: digit :: rest)
  | heredoc {behind : List Byte} (habuts : l.abuts = false) (h : HeredocStart.Follows behind) :
      Opens l lineStart .heredoc (Byte.ofChar '<' :: Byte.ofChar '<' :: behind)
  | percentLiteral {rest : List Byte} (hoperand : l.expectsOperand)
      (hassign : rest.head? ≠ some (Byte.ofChar '=')) (h : Delimiter.Follows rest) :
      Opens l lineStart .percentLiteral (Byte.ofChar '%' :: rest)
  | blockComment {bytes : List Byte} (hline : lineStart)
      (h : Line.StartsWord BlockComment.opener bytes) :
      Opens l lineStart .blockComment bytes

/-! ### Punctuators -/

namespace Punctuator

variable {bytes rest : List Byte} {b : Byte} {p : Punctuator}

/-- An operator begins with a byte of its own: with none of a name, and none of layout. -/
theorem first_of_read? (h : read? (b :: rest) = some p) :
    b.isIdentContinue = false ∧ b.isBlank = false ∧ b ≠ Byte.ofChar '#'
      ∧ b ≠ Byte.ofChar '\\' := by
  rw [read?.eq_def] at h
  dsimp only at h
  split at h <;> cases h <;> decide

/-- No operator begins where a sigil stands. -/
theorem read?_of_variable {v : Variable} (h : Variable.read? bytes = some v) :
    read? bytes = none := by
  rw [Variable.read?.eq_def] at h
  split at h
  · rfl
  · rfl
  · rfl
  · cases h

end Punctuator

namespace Lexeme

variable {l : Lookback} {lineStart : Bool} {bytes : List Byte} {p : Punctuator}

/-- Of all the rules only that of the punctuators applies where no detour opens. -/
theorem Form.eq_of_forall_not_opens {lexeme : Lexeme} (h : lexeme.Form l lineStart bytes)
    (hp : Punctuator.read? bytes = some p) (hnone : ∀ d : Detour, ¬ d.Opens l lineStart bytes) :
    lexeme = .bare (.punctuator p) p.bytes.length := by
  have hno : Punctuator.read? bytes ≠ none := by
    rw [hp]
    exact Option.some_ne_none p
  have hname : ∀ {b rest}, bytes = b :: rest → ¬ b.isIdentContinue := by
    rintro b rest rfl
    exact Bool.eq_false_iff.mp (Punctuator.first_of_read? hp).1
  cases h with
  | @keyword bytes _ _ hstart | @name bytes _ _ hstart =>
    cases bytes with
    | nil => cases hp
    | cons b rest => exact absurd (Bool.or_eq_true_iff.mpr (.inl hstart)) (hname rfl)
  | number hdigit => exact absurd (Bool.or_eq_true_iff.mpr (.inr hdigit)) (hname rfl)
  | signedNumber hsign hdigit habuts =>
    exact absurd (.signedNumber habuts hsign hdigit) (hnone .signedNumber)
  | lineEnd hb =>
    rcases hb with rfl | rfl
    · exact absurd rfl hno
    · exact absurd rfl hno
  | string _ hquote =>
    rcases hquote with rfl | rfl
    · exact absurd rfl hno
    · exact absurd rfl hno
  | percent hd hassign hoperand =>
    have hfollows := (Delimiter.isSome_read?_iff _).mp (Option.isSome_of_eq_some hd)
    exact absurd (.percentLiteral hoperand hassign hfollows) (hnone .percentLiteral)
  | named hv => exact absurd (Punctuator.read?_of_variable hv) hno
  | nameless hv => exact absurd (Punctuator.read?_of_variable hv) hno
  | heredoc hstart habuts =>
    have hfollows := HeredocStart.follows_of_read hstart (by simp)
    exact absurd (.heredoc habuts hfollows) (hnone .heredoc)
  | broken hstart habuts =>
    have hfollows := HeredocStart.follows_of_read hstart (by simp)
    exact absurd (.heredoc habuts hfollows) (hnone .heredoc)
  | comment hopens =>
    rw [BlockComment.opensAt, Bool.and_eq_true, Line.hasWord_iff] at hopens
    exact absurd (.blockComment hopens.1 hopens.2) (hnone .blockComment)
  | backslash => exact absurd rfl hno
  | punctuator h =>
    rw [hp] at h
    cases h
    rfl
  | unexpected h => exact absurd h hno

/-- **Where no detour opens, the punctuator is read.** -/
theorem read_of_forall_not_opens {b : Byte} {rest : List Byte}
    (hp : Punctuator.read? (b :: rest) = some p)
    (hnone : ∀ d : Detour, ¬ d.Opens l lineStart (b :: rest)) :
    read l lineStart b rest = .bare (.punctuator p) p.bytes.length :=
  (form_read l lineStart b rest).eq_of_forall_not_opens hp hnone

end Lexeme

end ScriptLexer
