import Mathlib.Data.List.TakeWhile
import ScriptLexer.Proofs.Lexeme.Extent

/-!
# The kinds of lexemes

A lexeme that is bare or spelled out is a token by itself: it is no piece of a literal with text, it
opens nothing and closes nothing. The kinds of the other tokens are those that *delimit*. And a
lexeme that is a punctuator is the longest punctuator that begins the bytes, so it can be told from
the bytes.

## Main definitions

* `Kind.delimits` — the kinds of pieces of text, and of what opens or closes a construct
* `Lexeme.Plain` — what a lexeme that is bare or spelled out says of its kind

## Main results

* `Lexeme.plain_read` — what is read at a byte is plain
-/

namespace ScriptLexer

/-- Whether tokens of the kind are pieces of literals with text, or open or close a construct. -/
def Kind.delimits : Kind → Bool
  | string | stringPart | heredocBegin | heredocPart | heredocEnd | insertBegin | insertEnd => true
  | _ => false

/-- Whether the kind is that of a token that stands by itself and shows its text. -/
def Kind.Spelled (k : Kind) : Prop :=
  k.delimits = false ∧ k.hasLiteral

/-! ### Numbers, names and variables -/

namespace Number

/-- The kinds of numbers. -/
def kinds : List Kind :=
  [.decimalInteger, .binaryInteger, .octalInteger, .hexadecimalInteger, .float]

theorem kind_tail (rest : List Byte) : (tail rest).1 ∈ kinds := by
  rw [tail]
  split <;> simp [kinds]

theorem kind_afterZero (rest : List Byte) : (afterZero rest).1 ∈ kinds := by
  cases rest with
  | nil => simp [afterZero, kinds]
  | cons b rest =>
    have htail := kind_tail (b :: rest)
    rw [afterZero]
    repeat' split
    all_goals first | exact htail | simp [kinds]

/-- **A number is of one of the kinds of numbers.** -/
theorem kind_read (rest : List Byte) : (read rest).1 ∈ kinds := by
  cases rest with
  | nil => simp [read, kinds]
  | cons first rest =>
    simp only [read]
    split
    · exact kind_afterZero rest
    · exact kind_tail _

theorem spelled_of_mem_kinds {k : Kind} (h : k ∈ kinds) : k.Spelled := by
  simp only [kinds, List.mem_cons, List.not_mem_nil, or_false] at h
  rcases h with rfl | rfl | rfl | rfl | rfl <;> exact ⟨rfl, rfl⟩

theorem spelled_read (rest : List Byte) : (read rest).1.Spelled :=
  spelled_of_mem_kinds (kind_read rest)

end Number

/-- A name that is not reserved is a constant, a method's name or a local variable. -/
theorem Name.kind_shape (defining : Bool) (rest : List Byte) :
    (shape defining rest).1 ∈ [Kind.constant, .methodName, .localVariable] := by
  rw [shape]
  repeat' split
  all_goals simp

theorem Name.spelled_shape (defining : Bool) (rest : List Byte) :
    (shape defining rest).1.Spelled := by
  have h := kind_shape defining rest
  simp only [List.mem_cons, List.not_mem_nil, or_false] at h
  rcases h with h | h | h <;> rw [h] <;> exact ⟨rfl, rfl⟩

/-- Whether the kind is that of a variable with a sigil. -/
def Kind.isSigiled : Kind → Bool
  | globalVariable | instanceVariable | classVariable => true
  | _ => false

theorem Kind.spelled_of_isSigiled {k : Kind} (h : k.isSigiled) : k.Spelled := by
  revert h
  cases k <;> simp [isSigiled, Spelled, delimits, hasLiteral]

theorem Variable.isSigiled_of_read? {rest : List Byte} {kind : Kind} {length : Nat}
    (h : read? rest = some (.named kind length)) : kind.isSigiled := by
  have hsigil : ∀ {sigil k kind' behind}, kind'.isSigiled →
      some (ofSigil sigil k kind' behind) = some (named kind length) → kind.isSigiled := by
    intro sigil k kind' behind hkind h
    rw [ofSigil] at h
    split at h <;> cases h
    exact hkind
  rw [read?.eq_def] at h
  split at h
  · exact hsigil rfl h
  · exact hsigil rfl h
  · exact hsigil rfl h
  · cases h

theorem Introducer.isSigiled_of_read? {rest : List Byte} {kind : Kind} {length : Nat}
    (h : read? rest = some (.variableName kind length)) : kind.isSigiled := by
  rw [read?.eq_def] at h
  split at h
  · cases h
  · split at h
    · rename_i hv
      cases h
      exact Variable.isSigiled_of_read? hv
    · cases h
  · cases h

/-! ### Identifiers of heredocs -/

namespace HeredocStart

theorem newline_not_mem_takeWhile {p : Byte → Bool} (hp : p Byte.newline = false)
    (rest : List Byte) : Byte.newline ∉ rest.take (rest.takeWhile p).length := by
  rw [← List.prefix_iff_eq_take.mp (List.takeWhile_prefix p)]
  intro hmem
  rw [List.mem_takeWhile_imp hmem] at hp
  cases hp

/-- An identifier that begins behind `front` stands on one line. -/
theorem newline_not_mem_identifier {indented : Bool} {rest : List Byte} {opener : HeredocOpener}
    (front : List Byte) (h : identifier indented front.length rest = .accepted opener) :
    Byte.newline ∉ ((front ++ rest).drop opener.offset).take opener.size := by
  cases rest with
  | nil => cases h
  | cons b rest =>
    rw [identifier] at h
    split at h
    · simp only [quoted] at h
      split at h
      · cases h
        rw [List.drop_length_add_append]
        exact newline_not_mem_takeWhile (by simp) rest
      · cases h
    split at h
    · cases h
      rw [List.drop_left]
      exact newline_not_mem_takeWhile (by decide) (b :: rest)
    · cases h

/-- **The identifier of a heredoc stands on the line of its opener.** -/
theorem newline_not_mem {rest : List Byte} {opener : HeredocOpener}
    (h : read rest = .accepted opener) :
    Byte.newline ∉ (rest.drop opener.offset).take opener.size := by
  rw [read.eq_def] at h
  split at h
  · exact newline_not_mem_identifier [0x2D] h
  · exact newline_not_mem_identifier [0x7E] h
  · exact newline_not_mem_identifier [] h

end HeredocStart

/-! ### Lexemes -/

namespace Lexeme

/-- What a lexeme at the front of `bytes` says of its kind: if it is bare, the kind delimits nothing
and is a punctuator only if that is the longest one; if it is spelled out, the kind shows its text.
The identifier of a heredoc stands on the opener's line. -/
def Plain (bytes : List Byte) : Lexeme → Prop
  | bare kind _ =>
    kind.delimits = false ∧ ∀ p, kind = .punctuator p → Punctuator.read? bytes = some p
  | spelled kind _ => kind.Spelled
  | heredoc opener =>
    Byte.newline ∉ (bytes.drop (2 + opener.offset)).take opener.size
  | quoted .. | malformed .. => True

variable (l : Lookback) (rest : List Byte)

theorem plain_punctuation (b : Byte) : (punctuation b rest).Plain (b :: rest) := by
  rw [punctuation]
  split
  · rename_i p hp
    refine ⟨rfl, fun q hq => ?_⟩
    cases hq
    exact hp
  · trivial

theorem plain_signed (sign : Byte) : (signed l sign rest).Plain (sign :: rest) := by
  rw [signed]
  split
  · exact Number.spelled_read rest
  · exact plain_punctuation rest sign

theorem plain_less : (less l rest).Plain (0x3C :: rest) := by
  rw [less.eq_def]
  split
  · split
    · exact plain_punctuation _ 0x3C
    split
    · rename_i hopener
      have hidentifier := HeredocStart.newline_not_mem hopener
      rw [Plain, Nat.add_comm]
      exact hidentifier
    · trivial
    · exact plain_punctuation _ 0x3C
  · exact plain_punctuation rest 0x3C

theorem plain_percent : (percent l rest).Plain (0x25 :: rest) := by
  rw [percent]
  split
  · split
    · trivial
    · exact plain_punctuation rest 0x25
  · exact plain_punctuation rest 0x25

theorem plain_equals (lineStart : Bool) : (equals lineStart rest).Plain (0x3D :: rest) := by
  rw [equals]
  split
  · trivial
  · exact plain_punctuation rest 0x3D

theorem plain_variableName (sigil : Byte) : (variableName sigil rest).Plain (sigil :: rest) := by
  rw [variableName]
  split
  · rename_i h
    exact Kind.spelled_of_isSigiled (Variable.isSigiled_of_read? h)
  · trivial
  · exact plain_punctuation rest sigil

theorem plain_name : (name l rest).Plain rest := by
  have hshape := Name.spelled_shape l.defining rest
  rw [name]
  split
  · exact ⟨rfl, fun p hp => by cases hp⟩
  · rename_i kind length hkind hread
    simp only [Name.read] at hread
    split at hread <;> cases hread
    · exact (hkind _ rfl).elim
    · exact hshape

/-- **What is read at a byte is plain.** -/
theorem plain_read (lineStart : Bool) (b : Byte) :
    (read l lineStart b rest).Plain (b :: rest) := by
  have hnewLine : (bare .newLine 1).Plain (b :: rest) := ⟨rfl, fun p hp => by cases hp⟩
  rw [read.eq_def]
  split
  · exact plain_name l (b :: rest)
  split
  · exact Number.spelled_read (b :: rest)
  split
  · exact hnewLine
  · exact hnewLine
  · trivial
  · trivial
  · exact plain_variableName rest _
  · exact plain_variableName rest _
  · exact plain_percent l rest
  · exact plain_signed l rest _
  · exact plain_signed l rest _
  · exact plain_less l rest
  · exact plain_equals rest lineStart
  · trivial
  · exact plain_punctuation rest b

end Lexeme

end ScriptLexer
