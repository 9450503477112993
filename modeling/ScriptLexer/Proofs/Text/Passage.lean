import ScriptLexer.Proofs.Tape.Overwrite
import ScriptLexer.Text.Transcript

/-!
# Passages of text

`Style.passage` reads the text of a literal as a function of the unread bytes alone: it has no tape,
writes nothing, and collects the decoded bytes in a list. Decoding in place does exactly what the
passage says, for every style of text, and that is `Tape.transcribe_eq`. Whatever is proved about
literals afterwards is proved about passages.

## Implementation notes

A passage counts offsets from its own beginning, so that it is the same wherever in a script the
bytes stand. What is wrong in it is therefore shifted when it is kept on a tape.

## Main results

* `Style.passage_take_of_full` — a text from which nothing was elided is the source's own bytes
* `Tape.transcribe_eq` — decoding in place is overwriting with the passage's text
-/

namespace ScriptLexer

/-- What the text of a literal is read as. -/
structure Passage where
  /-- The bytes that the text stands for. -/
  text : List Byte
  /-- The number of bytes read. -/
  length : Nat
  stop : Stop
  /-- The first malformed piece, by its offset in the passage. -/
  fault : Option Diagnostic
  deriving DecidableEq, Repr

namespace Passage

/-- A passage that stops where it begins. -/
def empty (stop : Stop) : Passage :=
  ⟨[], 0, stop, none⟩

/-- A passage with a piece in front of it. -/
def behind (p : Piece) (q : Passage) : Passage :=
  ⟨p.value.toList ++ q.text, p.length + q.length, q.stop,
    (p.malformation.map (⟨0, ·⟩)).or (q.fault.map (·.shift p.length))⟩

theorem fault_behind_shift (k : Nat) (p : Piece) (q : Passage) :
    (q.behind p).fault.map (·.shift k)
      = (p.malformation.map fun cause => ⟨k, cause⟩).or (q.fault.map (·.shift (k + p.length))) := by
  simp only [behind, Option.map_or, Option.map_map]
  congr 1
  exact congrArg (q.fault.map ·) (funext fun d => d.shift_shift k p.length)

end Passage

namespace Style

/-- Reads text to where it stops. `lineStart` tells whether a line of the text begins with the first
byte. -/
def passage (style : Style) (lineStart : Bool) (rest : List Byte) : Passage :=
  match style.stop? lineStart rest with
  | some stop => .empty stop
  | none =>
    match rest with
    | [] => .empty .endOfInput
    | b :: rest =>
      (passage style (b == Byte.newline) (rest.drop (style.piece b rest).more)).behind
        (style.piece b rest)
termination_by rest.length
decreasing_by
  rw [List.length_drop, List.length_cons]
  omega

end Style

/-! ### Bounds of a piece -/

namespace Escape

/-- **What an escape can be,** by the byte behind its backslash. -/
theorem read_cons_cases {motive : Piece → Prop} (b : Byte) (rest : List Byte)
    (named : ∀ v, named? b = some v → motive (.coded 1 v))
    (newline : b = Byte.newline → motive (.elided 1))
    (octal : Byte.isOctal b = true → motive (octal (b :: rest)))
    (hexadecimal : b = Byte.ofChar 'x' → motive (hexadecimal rest))
    (longControl : b = Byte.ofChar 'C' → motive (longControl rest))
    (controlled : b = Byte.ofChar 'c' → motive (controlled 1 rest))
    (itself : motive (.coded 1 b)) : motive (read (b :: rest)) := by
  rw [read]
  cases hn : named? b with
  | some v => exact named v hn
  | none =>
    simp only [beq_iff_eq]
    split
    · exact newline ‹_›
    split
    · exact octal ‹_›
    split
    · exact hexadecimal ‹_›
    split
    · exact longControl ‹_›
    split
    · exact controlled ‹_›
    · exact itself

theorem length_octalDigits_le (rest : List Byte) :
    ((rest.take 3).takeWhile Byte.isOctal).length ≤ rest.length :=
  Nat.le_trans (List.takeWhile_prefix _).length_le (List.length_take_le' _ _)

theorem more_hexadecimal_le (rest : List Byte) : (hexadecimal rest).more ≤ rest.length + 1 := by
  rcases rest with _ | ⟨a, _ | ⟨b, rest⟩⟩
  · simp [hexadecimal, Piece.malformed]
  · cases ha : Byte.hexValue? a <;> simp [hexadecimal, Piece.malformed, Piece.coded, ha]
  · cases ha : Byte.hexValue? a <;> cases hb : Byte.hexValue? b <;>
      simp [hexadecimal, Piece.malformed, Piece.coded, ha, hb]

theorem more_controlled_le (more : Nat) (rest : List Byte) :
    (controlled more rest).more ≤ rest.length + more := by
  cases rest with
  | nil => simp [controlled, Piece.elided]
  | cons b rest =>
    simp only [controlled, Piece.coded, List.length_cons]
    omega

theorem more_longControl_le (rest : List Byte) : (longControl rest).more ≤ rest.length + 1 := by
  rw [longControl.eq_def]
  split
  · exact Nat.le_trans (more_controlled_le 2 _) (Nat.le_refl _)
  · simp [Piece.malformed]

/-- An escape has no more bytes than there are. -/
theorem more_read_le (rest : List Byte) : (read rest).more ≤ rest.length := by
  cases rest with
  | nil => simp [read, Piece.elided]
  | cons b rest =>
    refine read_cons_cases (motive := fun p => p.more ≤ rest.length + 1) b rest ?_ ?_ ?_ ?_ ?_ ?_ ?_
    · simp [Piece.coded]
    · simp [Piece.elided]
    · exact fun _ => length_octalDigits_le (b :: rest)
    · exact fun _ => more_hexadecimal_le rest
    · exact fun _ => more_longControl_le rest
    · exact fun _ => more_controlled_le 1 rest
    · simp [Piece.coded]

/-- An escape that stands for a byte has a byte behind its backslash. -/
theorem more_read_pos {rest : List Byte} {v : Byte} (h : (read rest).value = some v) :
    0 < (read rest).more := by
  cases rest with
  | nil => simp [read, Piece.elided] at h
  | cons b rest =>
    revert h
    refine read_cons_cases (motive := fun p => p.value = some v → 0 < p.more) b rest ?_ ?_ ?_ ?_ ?_
      ?_ ?_
    · simp [Piece.coded]
    · simp [Piece.elided]
    · intro ho _
      simp [octal, Piece.coded, ho]
    · intro _
      rw [hexadecimal.eq_def]
      repeat' split
      all_goals simp [Piece.malformed, Piece.coded]
    · intro _
      rw [longControl.eq_def]
      simp only [controlled.eq_def]
      repeat' split
      all_goals simp [Piece.malformed, Piece.coded, Piece.elided]
    · intro _
      rw [controlled.eq_def]
      split <;> simp [Piece.coded, Piece.elided]
    · simp [Piece.coded]

end Escape

namespace Style

variable {style : Style} {lineStart : Bool} {b : Byte} {rest : List Byte}

/-- **What a piece can be,** whatever the style: a byte that stands for itself, a shielded byte, or
an escape. -/
theorem piece_cases {motive : Piece → Prop} (style : Style) (b : Byte) (rest : List Byte)
    (plain : motive (.plain b))
    (shielded : ∀ c tail, rest = c :: tail → motive (.coded 1 c))
    (escape : motive (Escape.read rest)) : motive (style.piece b rest) := by
  cases style with
  | verbatim close =>
    simp only [piece, Style.shielded]
    split
    · exact plain
    · split
      · exact shielded _ _ rfl
      · exact plain
  | verbatimLines close => exact plain
  | decoded close | decodedLines close =>
    simp only [piece]
    split
    · exact escape
    · exact plain

/-- A piece has no more bytes than there are. -/
theorem more_piece_le (style : Style) (b : Byte) (rest : List Byte) :
    (style.piece b rest).more ≤ rest.length := by
  refine piece_cases (motive := fun p => p.more ≤ rest.length) style b rest (Nat.zero_le _) ?_
    (Escape.more_read_le rest)
  rintro c tail rfl
  simp [Piece.coded]

/-- A piece of one byte that stands for a byte stands for itself. -/
theorem piece_value_of_more_eq_zero {v : Byte} (hm : (style.piece b rest).more = 0)
    (hv : (style.piece b rest).value = some v) : v = b := by
  revert hm hv
  refine piece_cases (motive := fun p => p.more = 0 → p.value = some v → v = b) style b rest ?_ ?_
    ?_
  · intro _ hv
    exact (Option.some.inj hv).symm
  · intro c tail _ hm
    simp [Piece.coded] at hm
  · intro hm hv
    exact absurd hm (Nat.ne_of_gt (Escape.more_read_pos hv))

/-- Only an escape is ever malformed. -/
theorem piece_malformation {cause : Malformation}
    (h : (style.piece b rest).malformation = some cause) : b = Byte.ofChar '\\' := by
  cases style with
  | verbatim close =>
    revert h
    simp only [piece, shielded]
    split
    · simp [Piece.plain]
    · split <;> simp [Piece.plain, Piece.coded]
  | verbatimLines close => simp [piece, Piece.plain] at h
  | decoded close | decodedLines close =>
    simp only [piece] at h
    split at h
    · simpa using ‹(b == Byte.ofChar '\\') = true›
    · simp [Piece.plain] at h

/-! ### How a passage unfolds -/

theorem passage_of_stop {stop : Stop} (h : style.stop? lineStart rest = some stop) :
    style.passage lineStart rest = .empty stop := by
  rw [passage.eq_def, h]

theorem passage_nil (h : style.stop? lineStart [] = none) :
    style.passage lineStart [] = .empty .endOfInput := by
  rw [passage.eq_def, h]

theorem passage_cons (h : style.stop? lineStart (b :: rest) = none) :
    style.passage lineStart (b :: rest)
      = (style.passage (b == Byte.newline) (rest.drop (style.piece b rest).more)).behind
          (style.piece b rest) := by
  rw [passage.eq_def, h]

/-- **Induction on a passage.** A passage stops at once, or the bytes are at their end, or a piece
stands in front of a passage that is shorter. -/
theorem passage_induction {motive : Bool → List Byte → Passage → Prop} (style : Style)
    (stops : ∀ {lineStart rest stop}, style.stop? lineStart rest = some stop →
      motive lineStart rest (.empty stop))
    (ends : ∀ {lineStart}, style.stop? lineStart [] = none →
      motive lineStart [] (.empty .endOfInput))
    (step : ∀ {lineStart b rest}, style.stop? lineStart (b :: rest) = none →
      motive (b == Byte.newline) (rest.drop (style.piece b rest).more)
        (style.passage (b == Byte.newline) (rest.drop (style.piece b rest).more)) →
      motive lineStart (b :: rest)
        ((style.passage (b == Byte.newline) (rest.drop (style.piece b rest).more)).behind
          (style.piece b rest)))
    (lineStart : Bool) (rest : List Byte) :
    motive lineStart rest (style.passage lineStart rest) := by
  cases hstop : style.stop? lineStart rest with
  | some stop =>
    rw [passage_of_stop hstop]
    exact stops hstop
  | none =>
    cases rest with
    | nil =>
      rw [passage_nil hstop]
      exact ends hstop
    | cons b rest =>
      rw [passage_cons hstop]
      exact step hstop (passage_induction style stops ends step _ _)
termination_by rest.length
decreasing_by
  rw [List.length_drop, List.length_cons]
  omega

/-! ### Bounds of a passage -/

/-- A passage reads no more bytes than there are. -/
theorem length_passage_le (style : Style) (lineStart : Bool) (rest : List Byte) :
    (style.passage lineStart rest).length ≤ rest.length := by
  induction lineStart, rest using passage_induction style with
  | stops h => exact Nat.zero_le _
  | ends h => exact Nat.zero_le _
  | @step lineStart b rest h ih =>
    have hmore := more_piece_le style b rest
    rw [List.length_drop] at ih
    simp only [Passage.behind, Piece.length, List.length_cons]
    omega

theorem length_value_le (p : Piece) : p.value.toList.length ≤ p.length := by
  cases h : p.value <;> simp [Piece.length]

/-- A text is no longer than the bytes it is read from. -/
theorem length_text_passage_le (style : Style) (lineStart : Bool) (rest : List Byte) :
    (style.passage lineStart rest).text.length ≤ (style.passage lineStart rest).length := by
  induction lineStart, rest using passage_induction style with
  | stops h => exact Nat.zero_le _
  | ends h => exact Nat.zero_le _
  | @step lineStart b rest h ih =>
    simp only [Passage.behind, List.length_append]
    exact Nat.add_le_add (length_value_le _) ih

/-- **Where nothing is elided, nothing is changed.** A text as long as the bytes it is read from is
these bytes. -/
theorem passage_take_of_full (style : Style) (lineStart : Bool) (rest : List Byte)
    (hfull : (style.passage lineStart rest).text.length = (style.passage lineStart rest).length) :
    (style.passage lineStart rest).text = rest.take (style.passage lineStart rest).length := by
  induction lineStart, rest using passage_induction style with
  | stops h => rfl
  | ends h => rfl
  | @step lineStart b rest h ih =>
    have hvalue := length_value_le (style.piece b rest)
    have htext := length_text_passage_le style (b == Byte.newline)
      (rest.drop (style.piece b rest).more)
    simp only [Passage.behind, List.length_append] at hfull ⊢
    -- Both parts are full, so the piece is one byte that stands for itself.
    have hone : (style.piece b rest).value.toList.length = (style.piece b rest).length := by omega
    obtain ⟨v, hv⟩ : ∃ v, (style.piece b rest).value = some v := by
      cases hv : (style.piece b rest).value with
      | none => rw [hv] at hone; simp [Piece.length] at hone
      | some v => exact ⟨v, rfl⟩
    have hmore : (style.piece b rest).more = 0 := by
      rw [hv] at hone
      simpa [Piece.length, eq_comm] using hone
    have hb : v = b := piece_value_of_more_eq_zero hmore hv
    rw [ih (by omega), hv, hb, Piece.length, hmore]
    simp [Nat.add_comm 1]

/-- What is wrong in a passage is found at a backslash. -/
theorem passage_fault_at_backslash {style : Style} {lineStart : Bool} {rest : List Byte}
    {f : Diagnostic} (h : (style.passage lineStart rest).fault = some f) :
    rest[f.pos]? = some (Byte.ofChar '\\') := by
  induction lineStart, rest using passage_induction style generalizing f with
  | stops hstop => cases h
  | ends hstop => cases h
  | @step lineStart b rest hstop ih =>
    simp only [Passage.behind] at h
    cases hm : (style.piece b rest).malformation with
    | some cause =>
      rw [hm] at h
      cases h
      rw [piece_malformation hm]
      rfl
    | none =>
      rw [hm, Option.map_none, Option.none_or] at h
      obtain ⟨g, hg, rfl⟩ := Option.map_eq_some_iff.mp h
      have hback := ih hg
      rw [List.getElem?_drop] at hback
      simpa [Diagnostic.shift, Piece.length, Nat.add_right_comm _ 1] using hback

end Style

/-! ### Decoding in place -/

namespace Tape

/-- What a passage leaves behind, if it begins `n` bytes into a literal that began with `t` and has
been read as `text` so far. -/
def transcriptOf (text : List Byte) (n : Nat) (p : Passage) (t : Tape) : Transcript :=
  ⟨(t.keep (p.fault.map (·.shift (t.pos + n)))).overwrite (text ++ p.text) (n + p.length),
    n + p.length - (text ++ p.text).length, p.stop⟩

theorem transcriptOf_empty (text : List Byte) (n : Nat) (stop : Stop) (t : Tape) :
    t.transcriptOf text n (.empty stop) = ⟨t.overwrite text n, n - text.length, stop⟩ := by
  simp [transcriptOf, Passage.empty]

/-- A piece in front of a passage counts for the literal read so far. -/
theorem transcriptOf_behind (text : List Byte) (n : Nat) (p : Piece) (q : Passage) (t : Tape) :
    (t.keep (p.malformation.map fun cause => ⟨t.pos + n, cause⟩)).transcriptOf
        (text ++ p.value.toList) (n + p.length) q
      = t.transcriptOf text n (q.behind p) := by
  simp only [transcriptOf, pos_keep, keep_keep, Passage.fault_behind_shift, Nat.add_assoc]
  simp only [Passage.behind, List.append_assoc]

/-! ### How decoding in place unfolds -/

section Unfold

variable {style : Style} {lineStart : Bool} {skip : Nat} {t : Tape}

theorem transcribe_of_stop {stop : Stop} (hstop : style.stop? lineStart t.rest = some stop) :
    t.transcribe style lineStart skip = .ok ⟨t, skip, stop⟩ := by
  rw [transcribe, hstop]

theorem transcribe_nil (hstop : style.stop? lineStart t.rest = none) (hrest : t.rest = []) :
    t.transcribe style lineStart skip = .ok ⟨t, skip, .endOfInput⟩ := by
  rw [transcribe, hstop]
  simp only
  split
  · rfl
  · rename_i hcons
    rw [hrest] at hcons
    cases hcons

theorem transcribe_cons {b : Byte} {rest : List Byte}
    (hstop : style.stop? lineStart t.rest = none) (hrest : t.rest = b :: rest) :
    t.transcribe style lineStart skip
      = (do
        let (t', skip') ← t.write skip (style.piece b rest)
        t'.transcribe style (b == Byte.newline) skip') := by
  rw [transcribe, hstop]
  simp only
  split
  · rename_i hnil
    rw [hrest] at hnil
    cases hnil
  · rename_i hcons
    rw [hrest] at hcons
    cases hcons
    split <;> rename_i hwrite <;> rw [hwrite] <;> rfl

end Unfold

/-- Decoding in place from halfway through a literal on. -/
theorem transcribe_overwrite (style : Style) (lineStart : Bool) (t : Tape) (text : List Byte)
    (n : Nat) (htext : text.length ≤ n) (hn : n ≤ t.rest.length) :
    (t.overwrite text n).transcribe style lineStart (n - text.length)
      = .ok (t.transcriptOf text n (style.passage lineStart (t.rest.drop n))) := by
  have hrest := rest_overwrite text n t
  cases hstop : style.stop? lineStart (t.rest.drop n) with
  | some stop =>
    rw [transcribe_of_stop (hrest ▸ hstop), Style.passage_of_stop hstop, transcriptOf_empty]
  | none =>
    cases hr : t.rest.drop n with
    | nil =>
      rw [transcribe_nil (hrest ▸ hstop) (hrest.trans hr), Style.passage_nil (hr ▸ hstop),
        transcriptOf_empty]
    | cons b rest =>
      have hmore := Style.more_piece_le style b rest
      have hlen : t.rest.length - n = rest.length + 1 := by
        rw [← List.length_drop, hr, List.length_cons]
      have hdrop : t.rest.drop (n + (style.piece b rest).length)
          = rest.drop (style.piece b rest).more := by
        rw [← List.drop_drop, hr]
        rfl
      have hvalue := Style.length_value_le (style.piece b rest)
      have hwrite := write_overwrite (p := style.piece b rest) htext
        (by rw [Piece.length]; omega : n + (style.piece b rest).length ≤ t.rest.length)
      rw [transcribe_cons (hrest ▸ hstop) (hrest.trans hr), hwrite, Style.passage_cons (hr ▸ hstop),
        ← transcriptOf_behind, ← hdrop]
      -- The tape behind the piece is again one halfway through the same literal.
      exact transcribe_overwrite style (b == Byte.newline) _ _ _
        (by rw [List.length_append]; omega) (by rw [rest_keep, Piece.length]; omega)
termination_by t.rest.length - n
decreasing_by
  rw [rest_keep, Piece.length]
  omega

/-- **Decoding in place is overwriting with the passage's text.** -/
theorem transcribe_eq (style : Style) (lineStart : Bool) (t : Tape) :
    t.transcribe style lineStart 0
      = .ok (t.transcriptOf [] 0 (style.passage lineStart t.rest)) := by
  have h := transcribe_overwrite style lineStart t [] 0 (Nat.le_refl _) (Nat.zero_le _)
  rwa [overwrite_nil_zero, List.drop_zero] at h

/-! ### What decoding in place leaves behind -/

/-- A passage that was read from the bytes ahead, so that it reads no more bytes than there are and
its text is no longer than they are. -/
structure Ahead (t : Tape) (p : Passage) : Prop where
  text_le : p.text.length ≤ p.length
  length_le : p.length ≤ t.rest.length

theorem ahead_passage (style : Style) (lineStart : Bool) (t : Tape) :
    t.Ahead (style.passage lineStart t.rest) :=
  ⟨Style.length_text_passage_le .., Style.length_passage_le ..⟩

variable {t : Tape} {p : Passage}

theorem pos_transcriptOf (h : t.Ahead p) :
    (t.transcriptOf [] 0 p).tape.pos = t.pos + p.length := by
  rw [transcriptOf, List.nil_append, Nat.zero_add]
  exact pos_overwrite h.text_le h.length_le

/-- The decoded text ends as far behind its beginning as it is long. -/
theorem behind_transcriptOf (h : t.Ahead p) :
    (t.transcriptOf [] 0 p).tape.behind (t.transcriptOf [] 0 p).skip
      = .ok (t.pos + p.text.length) := by
  have hskip : (t.transcriptOf [] 0 p).skip = p.length - p.text.length := by simp [transcriptOf]
  have htext := h.text_le
  rw [behind, pos_transcriptOf h, hskip, if_pos (by omega)]
  exact congrArg Except.ok (by omega)

/-- **The decoded text stands where the literal began.** -/
theorem slice?_transcriptOf (t : Tape) (p : Passage) :
    Span.slice? ⟨t.pos, t.pos + p.text.length⟩ (t.transcriptOf [] 0 p).tape.buffer
      = some p.text := by
  have hpast : t.past.toList.length = t.pos := Array.length_toList
  have hbuffer : (t.transcriptOf [] 0 p).tape.buffer
      = t.past.toList ++ (p.text ++ ((t.rest.take p.length).drop p.text.length
          ++ t.rest.drop p.length ++ t.beyond)) := by
    simp [transcriptOf, buffer, past_overwrite]
  rw [hbuffer, Span.slice?, if_pos (by simp [hpast]), Span.length, ← hpast, List.drop_left,
    Nat.add_sub_cancel_left, List.take_left]

theorem diagnostic_transcriptOf (t : Tape) (p : Passage) :
    (t.transcriptOf [] 0 p).tape.diagnostic = t.diagnostic.or (p.fault.map (·.shift t.pos)) :=
  rfl

end Tape

end ScriptLexer
