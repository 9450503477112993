import ScriptLexer.Proofs.Lexer.Faces
import ScriptLexer.Proofs.Text.Encoding
import ScriptLexer.Proofs.Text.Verbatim

/-!
# Quoting

Any bytes are the text of some string: there are ways to write them so that the lexer reads them
back. In a verbatim literal that is a backslash in front of each backslash and of each closing byte;
in a decoded one every byte may be written in whichever way it has. A script that holds such a
literal and nothing else is read as one token with the text that was meant.

## Main definitions

* `Reading.OfVerbatim` — what is read of a verbatim text
* `Lexer.RunsAsString` — a script that is one string

## Main results

* `Lexer.verbatim_inverts_shield` — verbatim literals are read by the reference, and read back what
  was quoted
* `Lexer.decoded_inverts_writing` — decoded literals read back what was written in any way
-/

namespace ScriptLexer

/-! ### Verbatim text -/

/-- What is read of a verbatim text, of a token at `pos` whose opener has been read: all up to the
first closing byte that is not shielded, or all there is. -/
inductive Reading.OfVerbatim (pos : Nat) (close : Byte) (t : Tape) (r : Reading) : Prop
  /-- A string, whose closing byte is read with it. -/
  | closed {n : Nat} (closes : Reference.ClosesAt close t.rest n)
      (first : ∀ m < n, ¬ Reference.ClosesAt close t.rest m)
      (token : r.token.pos = pos ∧ r.token.kind = .string)
      (literal : r.token.literal.bind (·.slice? r.tape.buffer)
        = some (Reference.unshield close (t.rest.take n)))
      (ahead : r.tape.pos = t.pos + (n + 1) ∧ r.tape.rest = t.rest.drop (n + 1))
      (diagnostic : r.tape.diagnostic = t.diagnostic)
  /-- A string that is not closed, which is reported. -/
  | unterminated (never : ∀ n, ¬ Reference.ClosesAt close t.rest n)
      (token : r.token.pos = pos ∧ r.token.kind = .illegal)
      (literal : r.token.literal.bind (·.slice? r.tape.buffer)
        = some (Reference.unshield close t.rest))
      (ahead : r.tape.pos = t.pos + t.rest.length ∧ r.tape.rest = [])
      (diagnostic : r.tape.diagnostic = t.diagnostic.or (some ⟨pos, .unterminatedString⟩))

/-- **A verbatim text is read up to the first closing byte that is not shielded.** -/
theorem Reading.OfPassage.ofVerbatim {pos : Nat} {close : Byte} {t : Tape} {p : Passage}
    {r : Reading} (h : OfPassage pos Ending.verbatim t p r) (hp : p.UpToClose close t.rest) :
    OfVerbatim pos close t r := by
  obtain ⟨token, hliteral, hpos, hrest, hdiagnostic⟩ := h
  rw [hp.text] at hliteral
  rw [hp.fault, Option.map_none, Option.or_none] at hdiagnostic
  rcases hp.stop with ⟨hstop, hcloses⟩ | ⟨hstop, hlength⟩
  · rw [hstop] at token hpos hrest hdiagnostic
    exact .closed hcloses hp.before token hliteral ⟨hpos, hrest⟩
      (hdiagnostic.trans (Option.or_none ..))
  · rw [hstop] at token hpos hrest hdiagnostic
    rw [hlength] at hpos hrest hliteral
    rw [List.take_length] at hliteral
    refine .unterminated (fun n hcloses => ?_) token hliteral ⟨hpos, hrest.trans List.drop_length⟩
      hdiagnostic
    obtain ⟨hn, -⟩ := List.getElem?_eq_some_iff.mp hcloses.1
    exact hp.before n (hlength ▸ hn) hcloses

/-! ### Openers -/

/-- Only a backslash is closed by a backslash. -/
theorem Delimiter.closing_ne {opener : Byte} (h : opener ≠ Byte.ofChar '\\') :
    closing opener ≠ Byte.ofChar '\\' := by
  rw [closing]
  split_ifs
  · decide
  · decide
  · decide
  · decide
  · exact h

/-- Where an operand is expected, a percent sign, the letter of verbatim text and a punctuation byte
open a literal. -/
theorem Lexeme.read_verbatimPercent {opener : Byte} (h : Byte.isPunctuation opener)
    (rest : List Byte) (lineStart : Bool) :
    read .fresh lineStart (Byte.ofChar '%') (Byte.ofChar 'q' :: opener :: rest)
      = .quoted true (Delimiter.closing opener) 3 := by
  have hdelimiter : Delimiter.read? (Byte.ofChar 'q' :: opener :: rest)
      = some ⟨Delimiter.closing opener, true, 2⟩ := if_pos h
  have hpercent : read .fresh lineStart (Byte.ofChar '%') (Byte.ofChar 'q' :: opener :: rest)
      = percent .fresh (Byte.ofChar 'q' :: opener :: rest) := rfl
  rw [hpercent, percent, hdelimiter]
  rfl

namespace Lexer

/-! ### Scripts that are strings -/

/-- A script is one string: its tokens are a string at its beginning, with a text, and the end,
where nothing is open and nothing has been reported. -/
def RunsAsString (source text : List Byte) : Prop :=
  ∃ token l, (ofBytes source).run = .ok ([token, .bare source.length .endOfInput], l)
    ∧ token.pos = 0 ∧ token.kind = .string ∧ l.literal token = .ok (some text)
    ∧ l.depth = 1 ∧ l.diagnostic = none

variable {text rest : List Byte} {b : Byte} {n : Nat} {s : Stack} {l : Lexer}

/-- A script is one string if its first token is one and takes all bytes. -/
theorem Shows.runsAsString (hshows : (ofBytes (b :: rest)).Shows .string (some text) l)
    (hb : b.isSolid) (hl : l.Faces (b :: rest) ((b :: rest).drop n) s none)
    (hall : (b :: rest).length ≤ n) (hdepth : s.depth = 1) : RunsAsString (b :: rest) text := by
  rw [List.drop_eq_nil_of_le hall] at hl
  obtain ⟨token, hscan, hkind⟩ := hshows
  have hnext := next_of_scan hscan
  have hcalls : calls next 2 (ofBytes (b :: rest))
      = .ok ([token] ++ [.bare (b :: rest).length .endOfInput], l) :=
    calls_cons hnext (calls_cons (hl.next_at_end hdepth) rfl)
  have hinit : ∀ t ∈ [token], t.kind ≠ .endOfInput := by
    refine List.forall_mem_singleton.mpr ?_
    rw [hkind]
    decide
  have hbudget : 1 < (b :: rest).length + 1 := Nat.succ_lt_succ (Nat.succ_pos _)
  exact ⟨token, l, runFor_of_calls hinit rfl hbudget hcalls,
    (faces_ofBytes (b :: rest)).begins (fun _ => hb) hnext, hkind, literal_of_scan hscan,
    hl.depth.trans hdepth, hl.diagnostic⟩

/-- A verbatim literal whose text is quoted is one string. -/
theorem runsAsString_shield (opener : List Byte) {close : Byte} (hb : b.isSolid)
    (hclose : close ≠ Byte.ofChar '\\')
    (hlexeme : ∀ rest lineStart, Lexeme.read .fresh lineStart b (opener ++ rest)
      = .quoted true close (opener.length + 1)) (text : List Byte) :
    RunsAsString (b :: (opener ++ Reference.shield close text ++ [close])) text := by
  have hp : (Style.verbatim close).passage false
      ((b :: (opener ++ Reference.shield close text ++ [close])).drop (opener.length + 1))
      = ⟨text, (Reference.shield close text).length, .closed 1, none⟩ := by
    rw [List.append_assoc, List.drop_succ_cons, List.drop_left]
    exact Style.passage_shield hclose false text []
  obtain ⟨l, hshows, hl⟩ := (faces_ofBytes _).verbatim hb trivial
    (fun lineStart => (congrArg _ (List.append_assoc ..)).trans (hlexeme _ lineStart)) hp
  refine hshows.runsAsString hb hl ?_ rfl
  simp only [List.length_cons, List.length_append, List.length_nil, Stop.length]
  omega

/-- **Verbatim quoting reads back what was quoted.** A verbatim text is read up to the first closing
byte that is not shielded, and stands for its bytes without the backslashes that shield. So any
bytes can be quoted: between single quotes, and between any punctuation but backslashes. -/
theorem verbatim_inverts_shield :
    (∀ (pos : Nat) (close : Byte) (t : Tape),
      ∃ r, Reading.verbatim pos close t = .ok r ∧ Reading.OfVerbatim pos close t r)
    ∧ (∀ text, RunsAsString
      (Byte.ofChar '\'' :: (Reference.shield (Byte.ofChar '\'') text ++ [Byte.ofChar '\''])) text)
    ∧ ∀ text opener, Byte.isPunctuation opener → opener ≠ Byte.ofChar '\\' →
      RunsAsString (Byte.ofString "%q" ++ opener ::
        (Reference.shield (Delimiter.closing opener) text ++ [Delimiter.closing opener])) text := by
  refine ⟨fun pos close t => ?_, fun text => ?_, fun text opener hopener hne => ?_⟩
  · exact ⟨_, Reading.verbatim_eq pos close t,
      (Reading.ofPassage_text ..).ofVerbatim (Style.passage_verbatim close false t.rest)⟩
  · exact runsAsString_shield [] (by decide) (by decide) (fun _ _ => rfl) text
  · refine runsAsString_shield [Byte.ofChar 'q', opener] (by decide)
      (Delimiter.closing_ne hne) (fun rest lineStart => ?_) text
    exact Lexeme.read_verbatimPercent hopener rest lineStart

theorem verbatim_inverts_shield_percent :
    Byte.isPunctuation (Byte.ofChar '(') ∧ Byte.ofChar '(' ≠ Byte.ofChar '\\'
      ∧ RunsAsString (Byte.ofString "%q(\\)a(\\\\)") (Byte.ofString ")a(\\") := by
  have hopener : Byte.isPunctuation (Byte.ofChar '(') := by decide
  have hne : Byte.ofChar '(' ≠ Byte.ofChar '\\' := by decide
  refine ⟨hopener, hne, ?_⟩
  have hsource : Byte.ofString "%q(\\)a(\\\\)"
      = Byte.ofString "%q" ++ Byte.ofChar '(' :: (Reference.shield (Delimiter.closing
        (Byte.ofChar '(')) (Byte.ofString ")a(\\") ++ [Delimiter.closing (Byte.ofChar '(')]) := by
    decide +kernel
  rw [hsource]
  exact verbatim_inverts_shield.2.2 _ _ hopener hne

/-- **Decoded text reads back what was written,** whatever way was chosen for each byte. -/
theorem decoded_inverts_writing {written : List (List Byte)}
    (h : List.Forall₂ (Reference.Writes (Byte.ofChar '"')) text written) :
    RunsAsString (Byte.ofChar '"' :: (written.flatten ++ [Byte.ofChar '"'])) text := by
  have hp : (Style.decoded (Byte.ofChar '"')).passage false
      ((Byte.ofChar '"' :: (written.flatten ++ [Byte.ofChar '"'])).drop 1)
      = ⟨text, written.flatten.length, .closed 1, none⟩ := by
    rw [Style.passage_decoded]
    exact Reference.decode_written (by decide) h []
  obtain ⟨l, hshows, hl⟩ := (faces_ofBytes _).quoted (by decide) trivial (fun _ => rfl) hp
  refine hshows.runsAsString (by decide) hl ?_ rfl
  simp only [List.length_cons, List.length_append, List.length_nil, Stop.length]
  omega

/-- Bytes with a way to write each. A digit stands behind an octal escape and another behind a
hexadecimal one, and neither belongs to the escape. -/
def writtenDigits : List (Byte × List Byte) :=
  [(0x01, Byte.ofString "\\001"), (Byte.ofChar '7', Byte.ofString "7"),
    (0x0A, Byte.ofString "\\x0a"), (Byte.ofChar 'f', Byte.ofString "f"),
    (Byte.ofChar '"', Byte.ofString "\\\""), (0x1B, Byte.ofString "\\e")]

theorem decoded_inverts_writing_digits :
    List.Forall₂ (Reference.Writes (Byte.ofChar '"')) (writtenDigits.map (·.1))
        (writtenDigits.map (·.2))
      ∧ RunsAsString (Byte.ofString "\"\\0017\\x0af\\\"\\e\"") (writtenDigits.map (·.1)) := by
  have hwrites : List.Forall₂ (Reference.Writes (Byte.ofChar '"')) (writtenDigits.map (·.1))
      (writtenDigits.map (·.2)) := by
    refine .cons (.octal ?_ ?_ ?_ ?_) (.cons (.raw ?_ ?_ ?_) (.cons (.hexadecimal ?_ ?_ ?_)
      (.cons (.raw ?_ ?_ ?_) (.cons (.itself ?_ ?_ ?_ ?_) (.cons (.named ?_) .nil)))))
    all_goals decide +kernel
  have hsource : Byte.ofString "\"\\0017\\x0af\\\"\\e\""
      = Byte.ofChar '"' :: ((writtenDigits.map (·.2)).flatten ++ [Byte.ofChar '"']) := by
    decide +kernel
  rw [hsource]
  exact ⟨hwrites, decoded_inverts_writing hwrites⟩

end Lexer

end ScriptLexer
