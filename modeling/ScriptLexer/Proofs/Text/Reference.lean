import Mathlib.Data.Nat.Digits.Defs
import ScriptLexer.Proofs.Text.Passage

/-!
# Decoding into a list of its own

A decoder that allocates: it reads the bytes of a text unit by unit and appends what each unit
stands for to its output. It shares nothing with the decoder that works in place. Named escapes come
from a table, digits are read as natural numbers in positional notation and cut down to a byte at
the end, and introducers are recognised by their shape.

Decoding in place leaves the same text, stops at the same place for the same reason, and keeps the
same diagnostic, whatever the bytes are. Escapes that the end of the script cuts off and malformed
ones are included.

## Main definitions

* `Reference.escape` — one escape
* `Reference.decode` — the text up to a closing byte, an introducer, or the end

## Main results

* `Escape.read_eq_reference` — the two agree on one escape
* `Style.passage_decoded` — and on a whole passage
* `Tape.transcribe_decoded` — so decoding in place leaves what the reference decoder puts out
-/

namespace ScriptLexer

namespace Reference

/-- The letters that name a control byte. -/
def names : List (Char × Byte) :=
  [('n', 0x0A), ('t', 0x09), ('r', 0x0D), ('f', 0x0C), ('v', 0x0B), ('a', 0x07), ('e', 0x1B),
    ('b', 0x08), ('s', 0x20)]

/-- The control byte that a letter names. -/
def named (b : Byte) : Option Byte :=
  (names.find? fun entry => b == Byte.ofChar entry.1).map (·.2)

/-- The control byte of a byte. -/
def control (b : Byte) : Byte :=
  if b = Byte.ofChar '?' then 0x7F else (named b).getD b &&& 0x9F

/-- The value of a digit: `0` to `9`, then `A` to `F` or `a` to `f`. -/
def digit (b : Byte) : Nat :=
  if b ≤ 0x39 then b.toNat - 0x30 else if b ≤ 0x46 then b.toNat - 0x37 else b.toNat - 0x57

/-- The byte that a numeral in a base stands for, whose value is taken modulo 256. -/
def numeral (base : Nat) (digits : List Byte) : Byte :=
  UInt8.ofNat (Nat.ofDigits base (digits.map digit).reverse)

/-- The longest run of bytes of a class, of which at most `limit` are taken. -/
def run (p : Byte → Bool) (limit : Nat) (bytes : List Byte) : List Byte :=
  (bytes.takeWhile p).take limit

/-- Reads one escape, the backslash left out: the number of bytes, what they stand for, and what is
wrong with them. -/
def escape : List Byte → Nat × List Byte × Option Malformation
  | [] => (0, [], none)
  | b :: rest =>
    if (named b).isSome then (1, (named b).toList, none)
    else if b = Byte.newline then (1, [], none)
    else if Byte.isOctal b then
      let digits := run Byte.isOctal 3 (b :: rest)
      (digits.length, [numeral 8 digits], none)
    else if b = Byte.ofChar 'x' then
      match run Byte.isHexadecimal 2 rest with
      | [] => (1, [], some .invalidHexEscape)
      | digits => (1 + digits.length, [numeral 16 digits], none)
    else if b = Byte.ofChar 'C' then
      if rest.head? ≠ some (Byte.ofChar '-') then (1, [], some .invalidEscape)
      else
        match rest.tail with
        | [] => (2, [], none)
        | y :: _ => (3, [control y], none)
    else if b = Byte.ofChar 'c' then
      match rest with
      | [] => (1, [], none)
      | y :: _ => (2, [control y], none)
    else (1, [b], none)

/-- Whether the bytes begin with an introducer: a hash sign, and behind it an opening brace, or a
sigil of one or two bytes and a byte that may begin a name. -/
def introduces : List Byte → Bool
  | hash :: sigil :: rest =>
    hash == Byte.ofChar '#' &&
      (sigil == Byte.ofChar '\x7b' ||
        sigil == Byte.ofChar '$' && rest.head?.any Byte.isIdentStart ||
        sigil == Byte.ofChar '@' && rest.head?.any Byte.isIdentStart ||
        sigil == Byte.ofChar '@' && rest.head? == some (Byte.ofChar '@') &&
          rest.tail.head?.any Byte.isIdentStart)
  | _ => false

/-- Decodes the text up to a closing byte, an introducer, or the end. -/
def decode (close : Byte) : List Byte → Passage
  | [] => ⟨[], 0, .endOfInput, none⟩
  | b :: rest =>
    if b = close then ⟨[], 0, .closed 1, none⟩
    else if introduces (b :: rest) then ⟨[], 0, .interpolation, none⟩
    else if b = Byte.ofChar '\\' then
      match escape rest with
      | (n, output, fault) =>
        let behind := decode close (rest.drop n)
        ⟨output ++ behind.text, n + 1 + behind.length, behind.stop,
          match fault with
          | some cause => some ⟨0, cause⟩
          | none => behind.fault.map fun f => ⟨n + 1 + f.pos, f.cause⟩⟩
    else
      let behind := decode close rest
      ⟨b :: behind.text, 1 + behind.length, behind.stop,
        behind.fault.map fun f => ⟨1 + f.pos, f.cause⟩⟩
termination_by rest => rest.length
decreasing_by
  · rw [List.length_drop, List.length_cons]
    omega
  · exact Nat.lt_succ_self _

end Reference

/-! ### Bytes with a meaning -/

namespace Escape

theorem named?_eq (b : Byte) : named? b = Reference.named b := by
  rw [named?.eq_def]
  split <;> simp_all [Reference.named, Reference.names, Byte.ofChar]

theorem control_eq (b : Byte) : control b = Reference.control b := by
  rw [control, Reference.control, named?_eq]
  simp only [beq_iff_eq]

end Escape

/-! ### Digits -/

theorem ofNat_toNat_sub {b c : Byte} (h : c ≤ b) : UInt8.ofNat (b.toNat - c.toNat) = b - c := by
  rw [UInt8.ofNat_sub (UInt8.le_iff_toNat_le.mp h), UInt8.ofNat_toNat, UInt8.ofNat_toNat]

theorem Byte.hexValue?_eq (b : Byte) :
    hexValue? b = if isHexadecimal b then some (UInt8.ofNat (Reference.digit b)) else none := by
  rw [hexValue?, isHexadecimal]
  cases hd : isDecimal b with
  | true =>
    simp only [isDecimal, Bool.and_eq_true, decide_eq_true_eq] at hd
    have hdigit : UInt8.ofNat (Reference.digit b) = b - 0x30 := by
      rw [Reference.digit, if_pos hd.2]
      exact ofNat_toNat_sub hd.1
    simp [hdigit]
  | false =>
    by_cases hl : 0x61 ≤ b ∧ b ≤ 0x66
    · have hdigit : UInt8.ofNat (Reference.digit b) = b - 0x57 := by
        have h1 : ¬ b ≤ 0x39 := fun h => absurd (UInt8.le_trans hl.1 h) (by decide)
        have h2 : ¬ b ≤ 0x46 := fun h => absurd (UInt8.le_trans hl.1 h) (by decide)
        rw [Reference.digit, if_neg h1, if_neg h2]
        exact ofNat_toNat_sub (UInt8.le_trans (by decide : (0x57 : Byte) ≤ 0x61) hl.1)
      simp [hdigit, hl.1, hl.2]
    · by_cases hu : 0x41 ≤ b ∧ b ≤ 0x46
      · have hdigit : UInt8.ofNat (Reference.digit b) = b - 0x37 := by
          have h1 : ¬ b ≤ 0x39 := fun h => absurd (UInt8.le_trans hu.1 h) (by decide)
          rw [Reference.digit, if_neg h1, if_pos hu.2]
          exact ofNat_toNat_sub (UInt8.le_trans (by decide : (0x37 : Byte) ≤ 0x41) hu.1)
        simp [hdigit, hu.1, hu.2, hl]
      · simp [hl, hu]

namespace Escape

theorem ofNat_digit_of_octal {b : Byte} (h : Byte.isOctal b = true) :
    UInt8.ofNat (Reference.digit b) = b - 0x30 := by
  simp only [Byte.isOctal, Bool.and_eq_true, decide_eq_true_eq] at h
  rw [Reference.digit, if_pos (UInt8.le_trans h.2 (by decide))]
  exact ofNat_toNat_sub h.1

/-- Arithmetic modulo 256 at every digit comes to the same as one reduction at the end. -/
theorem foldl_octal (digits : List Byte) (h : ∀ b ∈ digits, Byte.isOctal b = true) (n : Nat) :
    digits.foldl (fun value b => value * 8 + (b - 0x30)) (UInt8.ofNat n)
      = UInt8.ofNat ((digits.map Reference.digit).foldl (fun value d => d + 8 * value) n) := by
  induction digits generalizing n with
  | nil => rfl
  | cons b digits ih =>
    have hb := ofNat_digit_of_octal (h b (List.mem_cons_self ..))
    have hstep : UInt8.ofNat n * 8 + (b - 0x30) = UInt8.ofNat (Reference.digit b + 8 * n) := by
      rw [UInt8.ofNat_add, UInt8.ofNat_mul, hb, UInt8.add_comm, UInt8.mul_comm]
      rfl
    simp only [List.foldl_cons, List.map_cons, hstep]
    exact ih (fun c hc => h c (List.mem_cons_of_mem _ hc)) _

theorem octal_eq (rest : List Byte) :
    octal rest = .coded (Reference.run Byte.isOctal 3 rest).length
      (Reference.numeral 8 (Reference.run Byte.isOctal 3 rest)) := by
  have hrun : (rest.take 3).takeWhile Byte.isOctal = Reference.run Byte.isOctal 3 rest :=
    List.take_takeWhile.symm
  have hmem : ∀ b ∈ Reference.run Byte.isOctal 3 rest, Byte.isOctal b = true := fun b hb =>
    List.all_eq_true.mp List.all_takeWhile b (List.mem_of_mem_take hb)
  rw [octal, hrun, octalValue, Reference.numeral, Nat.ofDigits_eq_foldr, List.foldr_reverse]
  exact congrArg (Piece.coded _) (foldl_octal _ hmem 0)

theorem hexadecimal_eq (rest : List Byte) :
    hexadecimal rest = match Reference.run Byte.isHexadecimal 2 rest with
      | [] => .malformed 1 .invalidHexEscape
      | digits => .coded (1 + digits.length) (Reference.numeral 16 digits) := by
  rcases rest with _ | ⟨a, rest⟩
  · rfl
  cases ha : Byte.isHexadecimal a with
  | false => simp [hexadecimal, Byte.hexValue?_eq, ha, Reference.run]
  | true =>
    rcases rest with _ | ⟨b, rest⟩
    · simp [hexadecimal, Byte.hexValue?_eq, ha, Reference.run, Reference.numeral]
    cases hb : Byte.isHexadecimal b with
    | false => simp [hexadecimal, Byte.hexValue?_eq, ha, hb, Reference.run, Reference.numeral]
    | true =>
      have hvalue : Nat.ofDigits 16 [Reference.digit b, Reference.digit a]
          = Reference.digit a * 16 + Reference.digit b := by
        rw [Nat.ofDigits_cons, Nat.ofDigits_singleton, Nat.add_comm, Nat.mul_comm]
      simp [hexadecimal, Byte.hexValue?_eq, ha, hb, Reference.run, Reference.numeral, hvalue]

/-! ### Escapes and introducers -/

/-- **One escape.** It has as many bytes, stands for the same and is malformed in the same way. -/
theorem read_eq_reference (rest : List Byte) :
    Reference.escape rest
      = ((read rest).more, (read rest).value.toList, (read rest).malformation) := by
  cases rest with
  | nil => rfl
  | cons b rest =>
    rw [read]
    simp only [Reference.escape, ← named?_eq, beq_iff_eq]
    cases named? b with
    | some v => rfl
    | none =>
      simp only [Option.isSome_none, Bool.false_eq_true, if_false]
      split
      · rfl
      split
      · rw [octal_eq]
        rfl
      split
      · rw [hexadecimal_eq]
        split <;> rfl
      split
      · rcases rest with _ | ⟨c, rest⟩
        · rfl
        by_cases hc : c = 0x2D
        · subst hc
          cases rest with
          | nil => rfl
          | cons y rest => simp [longControl, controlled, control_eq, Piece.coded, Byte.ofChar]
        · simp [longControl, hc, Piece.malformed, Byte.ofChar]
      split
      · cases rest with
        | nil => rfl
        | cons y rest => simp [controlled, control_eq, Piece.coded]
      · rfl

end Escape

theorem Name.startsHere_eq (rest : List Byte) :
    startsHere rest = rest.head?.any Byte.isIdentStart := by
  cases rest <;> rfl

theorem Introducer.isSome_read?_cons (rest : List Byte) :
    (read? (0x23 :: rest)).isSome = match rest with
      | 0x7B :: _ => true
      | 0x24 :: name => Name.startsHere name
      | 0x40 :: 0x40 :: name => Name.startsHere name
      | 0x40 :: name => Name.startsHere name
      | _ => false := by
  simp only [read?.eq_def, Variable.read?.eq_def, Variable.ofSigil]
  grind

theorem Introducer.isSome_read? (rest : List Byte) :
    (read? rest).isSome = Reference.introduces rest := by
  rcases rest with _ | ⟨hash, rest⟩
  · rfl
  by_cases hh : hash = 0x23
  · subst hh
    rw [isSome_read?_cons]
    cases rest with
    | nil => rfl
    | cons sigil rest =>
      -- Two at signs are one sigil, since an at sign begins no name.
      have hat : Byte.isIdentStart 0x40 = false := by decide
      simp only [Name.startsHere_eq]
      split <;> simp_all [Reference.introduces, Byte.ofChar]
      rename_i name hne _
      intro hhead
      obtain ⟨tail, htail⟩ := List.head?_eq_some_iff.mp hhead
      exact absurd htail (hne tail)
  · rw [read?.eq_def]
    cases rest <;> simp [Reference.introduces, hh, Byte.ofChar]

theorem Introducer.read?_eq_none_iff {rest : List Byte} :
    read? rest = none ↔ Reference.introduces rest = false := by
  rw [← isSome_read?, Option.isSome_eq_false_iff, Option.isNone_iff_eq_none]

/-! ### Passages -/

/-- Decoded text stops before its closing byte, and before an introducer. -/
theorem Style.stop?_decoded (close : Byte) (lineStart : Bool) (rest : List Byte) :
    (Style.decoded close).stop? lineStart rest
      = if rest.head? = some close then some (.closed 1)
        else if Reference.introduces rest then some .interpolation else none := by
  simp only [stop?, close?, decodes, Introducer.isSome_read?, Bool.true_and]
  by_cases h : rest.head? = some close <;> simp [h]

/-- **A whole passage.** Decoded text is read as the reference decoder reads it. -/
theorem Style.passage_decoded (close : Byte) (lineStart : Bool) (rest : List Byte) :
    (Style.decoded close).passage lineStart rest = Reference.decode close rest := by
  induction lineStart, rest using passage_induction (.decoded close) with
  | @stops lineStart rest stop h =>
    rw [stop?_decoded] at h
    cases rest with
    | nil => simp [Reference.introduces] at h
    | cons b rest =>
      rw [Reference.decode]
      by_cases hb : b = close
      · simp_all [Passage.empty]
      · simp_all [Passage.empty]
  | @ends lineStart h =>
    rw [Reference.decode]
    rfl
  | @step lineStart b rest h ih =>
    rw [stop?_decoded] at h
    have hb : b ≠ close := by
      rintro rfl
      simp at h
    have hi : Reference.introduces (b :: rest) = false := by
      simpa [hb] using h
    rw [ih, Reference.decode, if_neg hb, if_neg (by simp [hi])]
    by_cases hs : b = Byte.ofChar '\\'
    · have hp : (Style.decoded close).piece b rest = Escape.read rest := by simp [piece, hs]
      rw [if_pos hs, hp, Escape.read_eq_reference]
      simp only [Passage.behind, Piece.length]
      cases (Escape.read rest).malformation with
      | none => rfl
      | some cause => rfl
    · have hp : (Style.decoded close).piece b rest = .plain b := by simp [piece, hs]
      rw [if_neg hs, hp]
      rfl

/-- **Decoding in place agrees with the reference decoder,** for every tape, wherever it stands and
whatever has been rewritten or reported before. The decoded bytes stand where the literal began,
reading stops where and why the reference decoder stops, and the first malformed escape is kept, at
its backslash, unless something was reported earlier. -/
theorem Tape.transcribe_decoded (close : Byte) (lineStart : Bool) (t : Tape) :
    ∃ r stop, t.transcribe (.decoded close) lineStart 0 = .ok r ∧
      r.tape.behind r.skip = .ok stop ∧
      Span.slice? ⟨t.pos, stop⟩ r.tape.buffer = some (Reference.decode close t.rest).text ∧
      r.stop = (Reference.decode close t.rest).stop ∧
      r.tape.pos = t.pos + (Reference.decode close t.rest).length ∧
      r.tape.diagnostic = t.diagnostic.or
        ((Reference.decode close t.rest).fault.map fun f => ⟨t.pos + f.pos, f.cause⟩) ∧
      ∀ f, (Reference.decode close t.rest).fault = some f →
        t.rest[f.pos]? = some (Byte.ofChar '\\') := by
  rw [← Style.passage_decoded close lineStart t.rest]
  have h := ahead_passage (.decoded close) lineStart t
  exact ⟨_, _, transcribe_eq .., behind_transcriptOf h, slice?_transcriptOf .., rfl,
    pos_transcriptOf h, diagnostic_transcriptOf .., fun f => Style.passage_fault_at_backslash⟩

end ScriptLexer
