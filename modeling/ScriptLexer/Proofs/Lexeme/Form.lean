import ScriptLexer.Lexeme

/-!
# What a lexeme can be

`Lexeme.read` tries one rule after another, and some rules fall back on the punctuators. `Form`
lists what may come of that, one constructor for each rule that succeeds, with what the bytes are
then and what the rule asks of the lookback. A property of lexemes is shown for each constructor,
and none of the rules has to be looked at again.

## Main definitions

* `Lexeme.Form` — a lexeme, and the rule that it comes from

## Main results

* `Lexeme.form_read` — what is read at a byte comes from one of the rules
* `Lexeme.Form.isPunctuation_close` — the byte that closes a literal is punctuation
-/

namespace ScriptLexer

/-! ### What closes a percent literal -/

namespace Delimiter

/-- What closes a punctuation byte is one. -/
theorem isPunctuation_closing {b : Byte} (hb : b.isPunctuation) :
    (closing b).isPunctuation := by
  rw [closing]
  split
  · rfl
  split
  · rfl
  split
  · rfl
  split
  · rfl
  · exact hb

theorem isPunctuation_close {bytes : List Byte} {d : Delimiter} (h : read? bytes = some d) :
    d.close.isPunctuation := by
  have hbyte : ∀ {verbatim letters rest}, ofPunctuation? verbatim letters rest = some d →
      d.close.isPunctuation := by
    intro verbatim letters rest h
    rw [ofPunctuation?.eq_def] at h
    split at h
    · cases h
    · split at h
      · rename_i hb
        cases h
        exact isPunctuation_closing hb
      · cases h
  rw [read?.eq_def] at h
  split at h
  · exact hbyte h
  · exact hbyte h
  · exact hbyte h

end Delimiter

/-! ### The rules -/

namespace Lexeme

/-- What the lexeme at the front of some bytes can be, and what the bytes and the lookback are
then. -/
inductive Form (l : Lookback) (lineStart : Bool) : List Byte → Lexeme → Prop
  | keyword {bytes : List Byte} {k : Keyword} {length : Nat} (hstart : Name.startsHere bytes)
      (h : Name.read l.defining bytes = (.keyword k, length)) :
      Form l lineStart bytes (.bare (.keyword k) length)
  | name {bytes : List Byte} {kind : Kind} {length : Nat} (hstart : Name.startsHere bytes)
      (h : Name.read l.defining bytes = (kind, length)) (hkind : ∀ k, kind ≠ .keyword k) :
      Form l lineStart bytes (.spelled kind length)
  | number {b : Byte} {rest : List Byte} (hdigit : b.isDecimal) :
      Form l lineStart (b :: rest) (.spelled (Number.read (b :: rest)).1 (Number.read (b :: rest)).2)
  | signedNumber {sign b : Byte} {rest : List Byte}
      (hsign : sign = Byte.ofChar '+' ∨ sign = Byte.ofChar '-') (hdigit : b.isDecimal)
      (habuts : l.abuts = false) :
      Form l lineStart (sign :: b :: rest)
        (.spelled (Number.read (b :: rest)).1 ((Number.read (b :: rest)).2 + 1))
  | lineEnd {b : Byte} {rest : List Byte} (hb : b = Byte.newline ∨ b = Byte.ofChar ';') :
      Form l lineStart (b :: rest) (.bare .newLine 1)
  | string {quote : Byte} {rest : List Byte} (isVerbatim : Bool)
      (hquote : quote = Byte.ofChar '"' ∨ quote = Byte.ofChar '\'') :
      Form l lineStart (quote :: rest) (.quoted isVerbatim quote 1)
  | percent {rest : List Byte} {d : Delimiter} (h : Delimiter.read? rest = some d)
      (hassign : rest.head? ≠ some (Byte.ofChar '=')) (hoperand : l.expectsOperand) :
      Form l lineStart (0x25 :: rest) (.quoted d.verbatim d.close (d.length + 1))
  | named {bytes : List Byte} {kind : Kind} {length : Nat}
      (h : Variable.read? bytes = some (.named kind length)) :
      Form l lineStart bytes (.spelled kind length)
  | nameless {bytes : List Byte} {sigil : String} {length : Nat}
      (h : Variable.read? bytes = some (.nameless sigil length)) :
      Form l lineStart bytes (.malformed (.invalidVariableName sigil) length true)
  | heredoc {behind : List Byte} {opener : HeredocOpener}
      (h : HeredocStart.read behind = .accepted opener) (habuts : l.abuts = false) :
      Form l lineStart (0x3C :: 0x3C :: behind) (.heredoc opener)
  | broken {behind : List Byte} {length : Nat} (h : HeredocStart.read behind = .broken length)
      (habuts : l.abuts = false) :
      Form l lineStart (0x3C :: 0x3C :: behind)
        (.malformed .invalidHeredocIdentifier (length + 2) true)
  | comment {rest : List Byte} (h : BlockComment.opensAt lineStart (0x3D :: rest)) :
      Form l lineStart (0x3D :: rest) (.malformed .unterminatedComment (rest.length + 1) false)
  | backslash {rest : List Byte} :
      Form l lineStart (0x5C :: rest) (.malformed .strayBackslash 1 false)
  | punctuator {bytes : List Byte} {p : Punctuator} (h : Punctuator.read? bytes = some p) :
      Form l lineStart bytes (.bare (.punctuator p) p.bytes.length)
  | unexpected {b : Byte} {rest : List Byte} (h : Punctuator.read? (b :: rest) = none) :
      Form l lineStart (b :: rest) (.malformed (.unexpectedByte b) 1 true)

variable (l : Lookback) (lineStart : Bool) (b : Byte) (rest : List Byte)

theorem form_punctuation : (punctuation b rest).Form l lineStart (b :: rest) := by
  rw [punctuation]
  split
  · exact .punctuator ‹_›
  · exact .unexpected ‹_›

theorem form_signed {sign : Byte} (hsign : sign = Byte.ofChar '+' ∨ sign = Byte.ofChar '-') :
    (signed l sign rest).Form l lineStart (sign :: rest) := by
  rw [signed]
  split
  · rename_i hdigit
    rw [Bool.and_eq_true, Bool.not_eq_true'] at hdigit
    cases rest with
    | nil => cases hdigit.1
    | cons b rest => exact .signedNumber hsign hdigit.1 hdigit.2
  · exact form_punctuation l lineStart sign rest

theorem form_less : (less l rest).Form l lineStart (0x3C :: rest) := by
  rw [less.eq_def]
  split
  · split
    · exact form_punctuation l lineStart 0x3C _
    rename_i habuts
    rw [Bool.not_eq_true] at habuts
    split
    · exact .heredoc ‹_› habuts
    · exact .broken ‹_› habuts
    · exact form_punctuation l lineStart 0x3C _
  · exact form_punctuation l lineStart 0x3C rest

theorem form_percent : (percent l rest).Form l lineStart (0x25 :: rest) := by
  rw [percent]
  split
  · rename_i hliteral
    rw [Bool.and_eq_true, bne_iff_ne] at hliteral
    split
    · exact .percent ‹_› hliteral.1 hliteral.2
    · exact form_punctuation l lineStart 0x25 rest
  · exact form_punctuation l lineStart 0x25 rest

theorem form_equals : (equals lineStart rest).Form l lineStart (0x3D :: rest) := by
  rw [equals]
  split
  · exact .comment ‹_›
  · exact form_punctuation l lineStart 0x3D rest

theorem form_variableName (sigil : Byte) :
    (variableName sigil rest).Form l lineStart (sigil :: rest) := by
  rw [variableName]
  split
  · exact .named ‹_›
  · exact .nameless ‹_›
  · exact form_punctuation l lineStart sigil rest

theorem form_name {bytes : List Byte} (h : Name.startsHere bytes) :
    (name l bytes).Form l lineStart bytes := by
  rw [name]
  split
  · exact .keyword h ‹_›
  · rename_i kind length hkind hread
    exact .name h hread fun k hk => hkind k hk

/-- **What is read at a byte comes from one of the rules.** -/
theorem form_read : (read l lineStart b rest).Form l lineStart (b :: rest) := by
  rw [read.eq_def]
  split
  · exact form_name l lineStart ‹_›
  split
  · exact .number ‹_›
  split
  · exact .lineEnd (.inl rfl)
  · exact .lineEnd (.inr rfl)
  · exact .string false (.inl rfl)
  · exact .string true (.inr rfl)
  · exact form_variableName l lineStart rest _
  · exact form_variableName l lineStart rest _
  · exact form_percent l lineStart rest
  · exact form_signed l lineStart rest (.inl rfl)
  · exact form_signed l lineStart rest (.inr rfl)
  · exact form_less l lineStart rest
  · exact form_equals l lineStart rest
  · exact .backslash
  · exact form_punctuation l lineStart b rest

/-- The byte that closes a literal is punctuation. -/
theorem Form.isPunctuation_close {bytes : List Byte} {isVerbatim : Bool} {close : Byte}
    {opener : Nat} (h : Form l lineStart bytes (.quoted isVerbatim close opener)) :
    close.isPunctuation := by
  cases h with
  | string _ hquote => rcases hquote with rfl | rfl <;> rfl
  | percent h => exact Delimiter.isPunctuation_close h

end Lexeme

end ScriptLexer
