import ScriptLexer.Proofs.Lexeme.BlockComment
import ScriptLexer.Proofs.Lexer.Scanning
import Mathlib.Data.Nat.Find

/-!
# Block comments between tokens

Where statements are scanned and a line begins with the word that opens a block comment, the lexer
either goes on behind the first later line that begins with the closing word, or, if there is none,
answers with a malformed token that takes in all that is left. What has been read so far is not
touched by a comment that is closed: the stack with its lookback, the buffer and the report are what
they were. At any other place an equals sign in front of the letter `b` assigns.

## Main results

* `Lexer.Facing.pass_comment`, `Lexer.Facing.next_unclosed` — a comment that is closed, or is not
* `Lexer.comment_ends_first` — the three cases, wherever statements are scanned
-/

namespace ScriptLexer

/-- What does not separate two tokens leaves the lookback as it is. -/
theorem Lookback.afterGap_false (l : Lookback) : l.afterGap false = l := by
  rw [afterGap, Bool.not_false, Bool.and_true]

namespace Lexer

variable {source : List Byte} {l m : Lexer} {rest : List Byte} {p : Nat}

namespace Facing

variable (h : m.Facing source (Byte.ofChar '=') rest)

include h

theorem readsStatement : m.stack.top.region.ReadsStatement (Byte.ofChar '=') :=
  .of_ne (by decide) (by decide) h.holds

/-- An equals sign begins layout where it opens a block comment that is closed. -/
theorem gap?_eq (hopens : Line.WordAt BlockComment.opener source m.pos) :
    m.gap? = Gap.blockComment? rest := by
  have hopens := (BlockComment.opensAt_iff source m.pos).mpr hopens
  rw [h.drop_eq] at hopens
  rw [gap?, h.rest_eq, h.isLineStart_eq, Gap.read?, if_neg (by decide), if_neg (by decide),
    if_neg (by decide), if_pos hopens]

/-- **A block comment that is closed is passed by,** and all else is left as it is. -/
theorem pass_comment (hscans : l.Scans m)
    (hopens : Line.WordAt BlockComment.opener source m.pos) (hlater : m.pos < p)
    (hcloses : Line.WordAt BlockComment.closer source p)
    (hfirst : ∀ q, m.pos < q → q < p → ¬ Line.WordAt BlockComment.closer source q) :
    ∃ m', l.Scans m' ∧ Line.EndsAt source p m'.pos ∧ m'.stack = m.stack
      ∧ m'.tape.buffer = m.tape.buffer ∧ m'.diagnostic = m.diagnostic ∧ l.next = m'.next := by
  have hsource := h.drop_eq
  obtain ⟨i, rfl, hplace⟩ := BlockComment.exists_place hsource (by decide) hlater hcloses
  have hlength := BlockComment.length?_of_first hplace fun j hj hclosed =>
    hfirst (m.pos + 1 + (j + 1)) (by omega) (by omega)
      ((BlockComment.wordAt_iff hsource).mpr hclosed)
  have hgap := h.gap?_eq hopens
  rw [Gap.blockComment?, hlength, Option.map_some] at hgap
  have hpassed := hscans.behind hgap
  refine ⟨_, hpassed, ?_, ?_, Tape.buffer_advanceBy _ _, rfl, hpassed.next_eq⟩
  · have hdrop : source.drop (m.pos + 1 + (i + 1)) = rest.drop (i + 1) := by
      rw [Nat.add_assoc, ← List.drop_drop, hsource, Nat.add_comm 1, List.drop_succ_cons]
    have hle : m.pos + 1 + (i + 1) ≤ source.length := by
      have hin := (List.getElem?_eq_some_iff.mp hplace.1).1
      have hall := h.pos_add_length
      rw [List.length_cons] at hall
      omega
    have hends := Line.endsAt_lengthWithEnd hle
    rw [hdrop] at hends
    have hsize : m.pos + (Gap.mk (i + 1 + Line.lengthWithEnd (rest.drop (i + 1))) false).length
        = m.pos + 1 + (i + 1) + Line.lengthWithEnd (rest.drop (i + 1)) := by
      show m.pos + (i + 1 + Line.lengthWithEnd (rest.drop (i + 1)) + 1) = _
      omega
    rw [pos_pass hgap, hsize]
    exact hends
  · rw [pass, Lookback.afterGap_false]
    rfl

/-- The search for the closing line fails in a block comment that takes in all that is left. -/
theorem next_of_length?_eq_none (hopens : Line.WordAt BlockComment.opener source m.pos)
    (hlength : BlockComment.length? rest = none) :
    ∃ l', m.next = .ok (.bare m.pos .illegal, l') ∧ l'.pos = source.length
      ∧ l'.diagnostic = m.diagnostic.or (some ⟨m.pos, .unterminatedComment⟩) := by
  have hgap := h.gap?_eq hopens
  rw [Gap.blockComment?, hlength, Option.map_none] at hgap
  have hopens := (BlockComment.opensAt_iff source m.pos).mpr hopens
  rw [h.drop_eq] at hopens
  have hlexeme : Lexeme.read m.stack.top.lookback (Line.startsBehind (source.take m.pos))
      (Byte.ofChar '=') rest = .malformed .unterminatedComment (rest.length + 1) false :=
    if_pos hopens
  obtain ⟨r, hr, hnext⟩ := h.exists_reading hgap h.readsStatement
  rw [hlexeme] at hr
  cases hr
  refine ⟨_, hnext, ?_, ?_⟩
  · show ((m.tape.noteAt m.tape.pos .unterminatedComment).advanceBy (rest.length + 1)).pos = _
    rw [Tape.pos_advanceBy, Tape.pos_noteAt, Tape.rest_noteAt, h.rest_eq, List.length_cons,
      Nat.min_self]
    exact h.pos_add_length
  · show (m.tape.noteAt m.tape.pos .unterminatedComment).diagnostic = _
    rw [Tape.noteAt_eq_keep]
    rfl

/-- **A block comment that is not closed takes in all that is left.** -/
theorem next_unclosed (hopens : Line.WordAt BlockComment.opener source m.pos)
    (hopen : ∀ p, m.pos < p → ¬ Line.WordAt BlockComment.closer source p) :
    ∃ l', m.next = .ok (.bare m.pos .illegal, l') ∧ l'.pos = source.length
      ∧ l'.diagnostic = m.diagnostic.or (some ⟨m.pos, .unterminatedComment⟩) :=
  h.next_of_length?_eq_none hopens <| BlockComment.length?_of_none fun i hcloses =>
    hopen (m.pos + 1 + (i + 1)) (by omega) ((BlockComment.wordAt_iff h.drop_eq).mpr hcloses)

end Facing

/-- At any other place an equals sign in front of the letter `b` assigns. -/
theorem Facing.next_assign (h : m.Facing source (Byte.ofChar '=') (Byte.ofChar 'b' :: rest))
    (hopens : ¬ Line.WordAt BlockComment.opener source m.pos) :
    ∃ l', m.next = .ok (.bare m.pos (.punctuator .assign), l')
      ∧ m.Takes (.bare m.pos (.punctuator .assign)) 1 l' := by
  have hopens : ¬ BlockComment.opensAt (Line.startsBehind (source.take m.pos))
      (Byte.ofChar '=' :: Byte.ofChar 'b' :: rest) := by
    rwa [← h.drop_eq, BlockComment.opensAt_iff]
  have hgap : m.gap? = none := h.gap?_eq_none rfl (by decide) (by decide) hopens
  have hassign : Lexeme.punctuation 0x3D (Byte.ofChar 'b' :: rest)
      = .bare (.punctuator .assign) 1 := by
    have hread : Punctuator.read? (0x3D :: Byte.ofChar 'b' :: rest) = some .assign := rfl
    rw [Lexeme.punctuation, hread]
    rfl
  have hlexeme : Lexeme.read m.stack.top.lookback (Line.startsBehind (source.take m.pos))
      (Byte.ofChar '=') (Byte.ofChar 'b' :: rest) = .bare (.punctuator .assign) 1 :=
    (if_neg hopens).trans hassign
  exact h.next_bare hgap h.readsStatement hlexeme

/-- **A block comment ends with its first closing line.** Wherever statements are scanned and a line
begins with the word that opens a block comment, the lexer goes on behind the first later line that
begins with the closing word, with nothing changed but its offset. If there is none, it answers with
a malformed token that takes in the rest of the script, and reports it. Anywhere else an equals sign
in front of the letter `b` assigns. -/
theorem comment_ends_first (source : List Byte) (n : Nat) :
    ∃ tokens l, calls next n (ofBytes source) = .ok (tokens, l)
      ∧ ∀ m rest, l.Scans m →
          source.drop m.pos = Byte.ofChar '=' :: Byte.ofChar 'b' :: rest →
          let closes p := m.pos < p ∧ Line.WordAt BlockComment.closer source p
          (Line.WordAt BlockComment.opener source m.pos →
              ((∃ p, closes p) →
                ∃ p m', closes p ∧ (∀ q, q < p → ¬ closes q) ∧ l.Scans m'
                  ∧ Line.EndsAt source p m'.pos ∧ m'.stack = m.stack
                  ∧ m'.tape.buffer = m.tape.buffer ∧ m'.diagnostic = m.diagnostic
                  ∧ l.next = m'.next)
              ∧ ((¬ ∃ p, closes p) →
                ∃ l', l.next = .ok (.bare m.pos .illegal, l') ∧ l'.pos = source.length
                  ∧ l'.diagnostic = m.diagnostic.or (some ⟨m.pos, .unterminatedComment⟩)))
            ∧ (¬ Line.WordAt BlockComment.opener source m.pos →
              ∃ l', l.next = .ok (.bare m.pos (.punctuator .assign), l')
                ∧ m.Takes (.bare m.pos (.punctuator .assign)) 1 l') := by
  obtain ⟨tokens, l, hcalls, -⟩ := exists_calls source n
  have hsound := (sound_ofBytes source).of_calls hcalls
  refine ⟨tokens, l, hcalls, ?_⟩
  intro m rest hscans hsource closes
  have hfacing := hscans.facing hsound hsource (not_endMarkerAt hsource (by decide))
  refine ⟨fun hopens => ⟨?_, fun hnone => ?_⟩, fun hopens => ?_⟩
  · classical
    intro hexists
    obtain ⟨hlater, hcloses⟩ := Nat.find_spec hexists
    have hfirst : ∀ q, q < Nat.find hexists → ¬ closes q := fun q hq => Nat.find_min hexists hq
    obtain ⟨m', hpassed⟩ := hfacing.pass_comment hscans hopens hlater hcloses
      fun q hq hlt hword => hfirst q hlt ⟨hq, hword⟩
    exact ⟨_, m', ⟨hlater, hcloses⟩, hfirst, hpassed⟩
  · rw [hscans.next_eq]
    exact hfacing.next_unclosed hopens fun p hp hword => hnone ⟨p, hp, hword⟩
  · rw [hscans.next_eq]
    exact hfacing.next_assign hopens

end Lexer

end ScriptLexer
