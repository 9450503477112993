import ScriptLexer.Proofs.Lexer.Effect
import ScriptLexer.Proofs.Lexer.Literals

/-!
# What open heredocs wait for

An open heredoc knows its identifier by the span it has in the buffer, and looks it up there again
at each segment of its body. Tokens that are read in the meantime rewrite bytes of the buffer, but
none under the identifier: it has been read, so it is as the script has it as long as the heredoc is
open. And an identifier stands on one line, so what closes a heredoc is decided by one line.

## Main definitions

* `Region.Identified` — the identifier of a heredoc is the script's, and has no line feed

## Main results

* `Lexer.Reads.identified_next` — a call keeps every open heredoc identified
-/

namespace ScriptLexer

/-- The identifier that a region waits for is as the script has it, and has no line feed. -/
def Region.Identified (source buffer : List Byte) : Region → Prop
  | heredocLine heredoc | heredocBody heredoc =>
    ∃ identifier, heredoc.identifier.slice? source = some identifier
      ∧ heredoc.identifier.slice? buffer = some identifier ∧ Byte.newline ∉ identifier
  | statements | quoted _ | interpolation _ => True

theorem Region.identified_countBrace {source buffer : List Byte} {region : Region} (kind : Kind)
    (h : region.Identified source buffer) :
    (Frame.countBrace kind region).Identified source buffer := by
  cases region with
  | interpolation braces =>
    simp only [Frame.countBrace]
    split <;> trivial
  | statements | quoted _ | heredocLine _ | heredocBody _ => exact h

variable {source : List Byte} {t : Tape} {b : Byte} {rest : List Byte} {r : Reading} {f : Frame}

/-- The bytes ahead are under the span that begins with them. -/
theorem Tape.slice?_ahead {i n : Nat} (h : i + n ≤ t.rest.length) :
    Span.slice? ⟨t.pos + i, t.pos + i + n⟩ t.buffer = some ((t.rest.drop i).take n) := by
  have hpast : t.past.toList.length = t.pos := Array.length_toList
  have hsize : t.pos + i + n ≤ t.buffer.length := by
    rw [buffer, List.length_append, List.length_append, hpast]
    omega
  have hdrop : t.buffer.drop (t.pos + i) = (t.rest ++ t.beyond).drop i := by
    rw [buffer, List.append_assoc, ← hpast, List.drop_length_add_append]
  rw [Span.slice?, if_pos ⟨Nat.le_add_right _ n, hsize⟩, Span.length, hdrop,
    Nat.add_sub_cancel_left, List.drop_append_of_le_length (by omega),
    List.take_append_of_le_length (by rw [List.length_drop]; omega)]

namespace Reading

/-- The heredoc that a statement opens is named by bytes of its line. -/
theorem exists_identifier {lookback : Lookback} (hrest : t.rest = b :: rest)
    (h : statement lookback b rest t = .ok r) (hkind : r.token.kind = .heredocBegin) :
    ∃ heredoc identifier, r.shift = .push (.heredocLine heredoc)
      ∧ t.pos ≤ heredoc.identifier.start
      ∧ heredoc.identifier.slice? t.buffer = some identifier ∧ Byte.newline ∉ identifier := by
  have hplain := Lexeme.plain_read lookback rest (t.isLineStart t.pos) b
  have hfits := Lexeme.fits_read lookback rest (t.isLineStart t.pos) b
  rw [statement] at h
  generalize Lexeme.read lookback (t.isLineStart t.pos) b rest = lexeme at h hplain hfits
  cases lexeme with
  | bare kind length =>
    cases h
    obtain rfl : kind = .heredocBegin := hkind
    cases hplain.1
  | spelled kind length =>
    obtain ⟨span, rfl⟩ := exists_of_spelled h
    obtain rfl : kind = .heredocBegin := hkind
    cases hplain.1
  | quoted isVerbatim close opener =>
    have hrewritten := isRewritten_ofLexeme_quoted h
    rw [hkind] at hrewritten
    cases hrewritten
  | heredoc opener =>
    obtain ⟨span, hspan, h⟩ := exists_of_bind_eq_ok h
    obtain ⟨literal, rfl⟩ := exists_of_spelled h
    rw [Span.between, if_pos (Nat.le_add_right _ _)] at hspan
    cases hspan
    obtain ⟨-, hinside, hle⟩ := hfits
    refine ⟨_, _, rfl, by simp only; omega, ?_, hplain⟩
    rw [← hrest, Nat.add_assoc t.pos]
    refine Tape.slice?_ahead ?_
    rw [hrest, List.length_cons]
    omega
  | malformed cause length shown =>
    cases shown with
    | true =>
      obtain ⟨span, rfl⟩ := exists_of_spelled h
      cases hkind
    | false =>
      cases h
      cases hkind

/-- A token that is not one of text leaves the buffer as it is. -/
theorem Lawful.buffer_eq {pos n : Nat} (h : r.Lawful pos n t)
    (hkind : r.token.kind.isRewritten = false) : r.tape.buffer = t.buffer := by
  refine List.ext_getElem? fun i => h.onward.frame i ?_
  rw [Token.rewritten, hkind]
  simp only [Bool.false_eq_true, if_false]
  omega

end Reading

namespace Lexer

variable {l l' : Lexer} {token : Token}

/-- What open heredocs wait for is as the script has it, on one line. -/
def Identified (source : List Byte) (l : Lexer) : Prop :=
  ∀ f ∈ l.stack.frames, f.region.Identified source l.tape.buffer

theorem identified_ofBytes (source : List Byte) : (ofBytes source).Identified source :=
  List.forall_mem_singleton.mpr trivial

/-- A call rewrites nothing under the identifier of a heredoc that is open. -/
theorem Moves.identified (h : Moves source l token l') (hl : l.Reads source) {region : Region}
    (hnamed : region.Named l.pos) (hregion : region.Identified source l.tape.buffer) :
    region.Identified source l'.tape.buffer := by
  cases region with
  | heredocLine heredoc | heredocBody heredoc =>
    obtain ⟨identifier, hsource, hslice, hline⟩ := hregion
    refine ⟨identifier, hsource, ?_, hline⟩
    rw [← hslice]
    refine Span.slice?_congr ?_ fun i _ hi => ?_
    · rw [h.reads.tape.length_buffer, hl.tape.length_buffer]
    · exact h.buffer_before (Nat.lt_of_lt_of_le hi hnamed.2)
  | statements | quoted _ | interpolation _ => trivial

/-- What a reading opens is identified, if the region it was read in is. -/
theorem identified_opened {pos n : Nat} (ht : t.Reads source) (hrest : t.rest = b :: rest)
    (hread : read f b rest t = .ok r) (hlawful : r.Lawful pos n t)
    (hf : f.region.Identified source t.buffer) :
    ∀ region ∈ r.shift.opened?, region.Identified source r.tape.buffer := by
  intro region hregion
  by_cases hkind : r.token.kind = .heredocBegin
  · have hlexical : r.token.kind.needsNoLexeme = false := by
      rw [hkind]
      rfl
    obtain ⟨-, -, hstatement⟩ := statement_of_read hread hlexical
    obtain ⟨heredoc, identifier, hshift, hstart, hslice, hline⟩ :=
      Reading.exists_identifier hrest hstatement hkind
    rw [hshift] at hregion
    cases hregion
    refine ⟨identifier, ?_, ?_, hline⟩
    · rw [← hslice]
      exact Span.slice?_congr ht.length_buffer.symm fun i hi _ =>
        (ht.buffer_eq (Nat.le_trans hstart hi)).symm
    · rw [hlawful.buffer_eq (by rw [hkind]; rfl), hslice]
  · have heffect := (nests_read hread).effect
    have hbuffer : r.token.kind.isRewritten = false → r.tape.buffer = t.buffer :=
      hlawful.buffer_eq
    generalize r.shift = shift at heffect hregion
    generalize r.token.kind = kind at heffect hkind hbuffer
    generalize f.region = region' at heffect hf
    cases heffect with
    | opensString _ | opensInterpolation _ =>
      cases hregion
      trivial
    | opensHeredoc _ => exact absurd rfl hkind
    | beginsBody =>
      cases hregion
      rw [hbuffer rfl]
      exact hf
    | inside _ | wholeString _ | resumesString | closesString | resumesBody _ | closesBody
    | closesInterpolation => cases hregion

/-- Settling rewrites nothing. -/
theorem Reads.identified_settle (h : l.Reads source) (hl : l.Identified source) :
    l.settle.Identified source := by
  obtain ⟨lookback, hstack⟩ := exists_settle_stack l
  intro f hf
  rw [hstack] at hf
  rw [h.settle.2.2.2.1]
  rcases List.mem_cons.mp hf with rfl | hf
  · exact hl l.stack.top List.mem_cons_self
  · exact hl f (List.mem_cons_of_mem _ hf)

/-- **A call keeps every open heredoc identified.** -/
theorem Reads.identified_next (h : l.Reads source) (hl : l.Identified source)
    (hnext : l.next = .ok (token, l')) : l'.Identified source := by
  have hsettled := h.settle.1
  have hidentified := h.identified_settle hl
  rcases next_cases hnext with ⟨hrest, rfl, rfl⟩ | ⟨b, rest, r, hrest, hr, rfl, rfl⟩
  · have hmoves := hsettled.finish hrest
    intro f hf
    rw [finish_stack] at hf
    exact hmoves.identified hsettled (hsettled.named f hf) (hidentified f hf)
  · obtain ⟨r', n, hr', hn, hlawful⟩ := exists_read hrest (hsettled.named _ List.mem_cons_self)
    rw [hr] at hr'
    cases hr'
    have hmoves := hsettled.commit hn hlawful
    refine Stack.forall_commit (P := Region.Identified source r.tape.buffer) (fun _ h => h)
      (fun _ => Region.identified_countBrace _) (fun f hf => ?_) ?_
    · exact hmoves.identified hsettled (hsettled.named f hf) (hidentified f hf)
    · exact identified_opened hsettled.tape hrest hr hlawful (hidentified _ List.mem_cons_self)

end Lexer

end ScriptLexer
