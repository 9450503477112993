import ScriptLexer.Proofs.Lexeme.Numeral
import ScriptLexer.Proofs.Lexer.Statement

/-!
# The tokens of numbers

A number is read in statements where a digit stands, and where a sign stands in front of one and
touches nothing. Then the longest number there is read, with the sign in front of it: that is the
text of the token, its kind is the one that this text has, and the lexer goes on behind it. And no
other token is of the kind of a number.

## Main definitions

* `NumberAt` — a sign or none, and a digit behind it

## Main results

* `Lexer.number_is_longest` — the token of a number is the longest one
-/

namespace ScriptLexer

/-- A number begins the bytes: in front of its first digit stands `sign`, which is nothing or a
sign that touches no token. -/
structure NumberAt (l : Lookback) (bytes sign behind : List Byte) : Prop where
  bytes_eq : bytes = sign ++ behind
  digit : Number.startsWithDigit behind
  sign : sign = []
    ∨ (sign = [Byte.ofChar '+'] ∨ sign = [Byte.ofChar '-']) ∧ l.abuts = false

namespace NumberAt

variable {l : Lookback} {bytes sign behind : List Byte}

theorem exists_cons (h : NumberAt l bytes sign behind) :
    ∃ b rest, bytes = b :: rest
      ∧ (b.isDecimal ∨ b = Byte.ofChar '+' ∨ b = Byte.ofChar '-') := by
  obtain ⟨rfl, hdigit, rfl | ⟨rfl | rfl, -⟩⟩ := h
  · cases behind with
    | nil => cases hdigit
    | cons b rest => exact ⟨b, rest, rfl, .inl hdigit⟩
  · exact ⟨_, _, rfl, .inr (.inl rfl)⟩
  · exact ⟨_, _, rfl, .inr (.inr rfl)⟩

/-- The number behind the sign is scanned, and the sign is part of it. -/
theorem read_eq {b : Byte} {rest : List Byte} (h : NumberAt l (b :: rest) sign behind)
    (lineStart : Bool) :
    Lexeme.read l lineStart b rest
      = .spelled (Number.read behind).1 ((Number.read behind).2 + sign.length) := by
  obtain ⟨hbytes, hdigit, hsign⟩ := h
  cases behind with
  | nil => cases hdigit
  | cons digit behind =>
    rcases hsign with rfl | ⟨rfl | rfl, habuts⟩
    · rw [List.nil_append] at hbytes
      cases hbytes
      exact Lexeme.read_digit l lineStart hdigit _
    · rw [List.singleton_append] at hbytes
      cases hbytes
      rw [Lexeme.read_sign l lineStart (.inl rfl) hdigit, habuts]
      rfl
    · rw [List.singleton_append] at hbytes
      cases hbytes
      rw [Lexeme.read_sign l lineStart (.inr rfl) hdigit, habuts]
      rfl

/-- What is scanned behind the sign is the longest number there. -/
theorem longest (h : NumberAt l bytes sign behind) :
    Longest Number.Spells behind (Number.read behind).1 (behind.take (Number.read behind).2) := by
  cases behind with
  | nil => cases h.digit
  | cons digit behind => exact Number.longest_read h.digit behind

theorem length_take (h : NumberAt l bytes sign behind) :
    (behind.take (Number.read behind).2).length = (Number.read behind).2 := by
  cases behind with
  | nil => cases h.digit
  | cons digit behind => exact List.length_take_of_le (Number.within_read digit behind).1.2

end NumberAt

namespace Lexer

variable {source : List Byte} {l l' : Lexer} {token : Token}

/-- A token of the kind of a number was read where a number begins. -/
theorem Sound.exists_numberAt (h : Sound source l) (hnext : l.next = .ok (token, l'))
    (hkind : token.kind ∈ Number.kinds) :
    l.stack.top.region.holdsStatements
      ∧ ∃ sign behind,
        NumberAt l.settle.stack.top.lookback (source.drop token.pos) sign behind := by
  have hneeds : token.kind.needsNoLexeme = false := by
    revert hkind
    generalize token.kind = kind
    revert kind
    decide
  obtain ⟨b, rest, n, hsource, hregion, hlexeme⟩ :=
    h.exists_spelled hnext (Number.spelled_of_mem_kinds hkind) hneeds
  have hform := l.form_lexeme b rest
  rw [hlexeme] at hform
  refine ⟨hregion.holdsStatements, ?_⟩
  rw [hsource]
  rcases hform.startsNumber hkind with hdigit | ⟨sign, behind, hbytes, hsign, habuts, hdigit⟩
  · exact ⟨[], _, rfl, hdigit, .inl rfl⟩
  · refine ⟨[sign], behind, hbytes, hdigit, .inr ⟨?_, habuts⟩⟩
    rcases hsign with rfl | rfl
    · exact .inl rfl
    · exact .inr rfl

/-- Where a number begins the longest one is read. -/
theorem Sound.next_number (h : Sound source l) (hnext : l.next = .ok (token, l'))
    (hregion : l.stack.top.region.holdsStatements) {sign behind : List Byte}
    (hnumber : NumberAt l.settle.stack.top.lookback (source.drop token.pos) sign behind) :
    ∃ text, Longest Number.Spells behind token.kind text
      ∧ l'.literal token = .ok (some (sign ++ text))
      ∧ l'.pos = token.pos + (sign ++ text).length := by
  have hmoves := h.reads.moves hnext
  obtain ⟨b, rest, hsource, hb⟩ := hnumber.exists_cons
  have hne : ∀ c : Byte, c.isDecimal = false → c ≠ Byte.ofChar '+' → c ≠ Byte.ofChar '-' →
      b ≠ c := by
    rintro c hdigit hplus hminus rfl
    rcases hb with hb | hb | hb
    · rw [hdigit] at hb
      cases hb
    · exact hplus hb
    · exact hminus hb
  have hend := hmoves.kind_ne_endOfInput hsource (hne _ rfl (by decide) (by decide))
  have hreads := Region.ReadsStatement.of_ne (hne (Byte.ofChar '\x7d') rfl (by decide) (by decide))
    (hne Byte.newline rfl (by decide) (by decide)) hregion
  rw [hsource] at hnumber
  obtain ⟨htoken, hstop, hliteral⟩ := h.next_spelled hnext hend hsource hreads (hnumber.read_eq _)
  refine ⟨behind.take (Number.read behind).2, ?_, ?_, ?_⟩
  · rw [htoken]
    exact hnumber.longest
  · rw [hliteral, hnumber.bytes_eq, Nat.add_comm, List.take_length_add_append]
  · rw [hstop, List.length_append, Nat.add_comm sign.length, hnumber.length_take]

/-- **The token of a number is the longest one.** -/
theorem number_is_longest (source : List Byte) (n : Nat) :
    ∃ tokens l token l', calls next n (ofBytes source) = .ok (tokens, l)
      ∧ l.next = .ok (token, l')
      ∧ (token.kind ∈ Number.kinds → l.stack.top.region.holdsStatements
          ∧ ∃ sign behind,
            NumberAt l.settle.stack.top.lookback (source.drop token.pos) sign behind)
      ∧ ∀ sign behind, l.stack.top.region.holdsStatements →
          NumberAt l.settle.stack.top.lookback (source.drop token.pos) sign behind →
          ∃ text, Longest Number.Spells behind token.kind text
            ∧ l'.literal token = .ok (some (sign ++ text))
            ∧ l'.pos = token.pos + (sign ++ text).length := by
  obtain ⟨tokens, l, hcalls, hl⟩ := exists_calls source n
  obtain ⟨token, l', hnext, -⟩ := exists_next hl
  have hsound := (sound_ofBytes source).of_calls hcalls
  exact ⟨tokens, l, token, l', hcalls, hnext, hsound.exists_numberAt hnext,
    fun sign behind hregion hnumber => hsound.next_number hnext hregion hnumber⟩

end Lexer

end ScriptLexer
