import ScriptLexer.Proofs.Lexer.Statement

/-!
# Where statements are scanned

Between two tokens of statements the lexer comes from one piece of layout to the next, and looks at
the bytes behind each. `Lexer.Scans l m` says that `m` is the lexer `l` at such a place, with the
lookback that the layout passed by has left. It is the same call that goes on from there
(`Scans.next_eq`), so what is said about the bytes at a place is said about the call.

What a place begins is a piece of layout, or an end marker, or a lexeme. In the last case the call
is known altogether: `Facing.exists_reading` gives its token and what it leaves behind by the
lexeme.

## Main definitions

* `Lexer.Scans` — the places that a lexer comes to on the way to its next token
* `Lexer.Facing` — the bytes of statements at a place
* `Lexer.Takes` — what a token does that is made of the next bytes and no more

## Main results

* `Lexer.Scans.next_eq` — the call goes on from each of the places
* `Lexer.Facing.exists_reading` — the call, by the lexeme that begins the bytes
-/

namespace ScriptLexer

/-- Where no end marker stands the script goes on. -/
theorem Tape.Reads.honourEndMarker_eq {source : List Byte} {t : Tape} (h : Reads source t)
    (hmarker : ¬ EndMarkerAt source t.pos) : t.honourEndMarker = t := by
  rw [honourEndMarker, if_neg]
  intro hends
  rw [Bool.and_eq_true, isLineStart_pos, Line.startsBehind, h.last] at hends
  obtain ⟨behind, hbehind, hendsHere⟩ := (Option.any_eq_true ..).mp hends.2
  refine hmarker ⟨hends.1, behind ++ t.beyond, ?_, ?_⟩
  · rw [← h.ahead, Line.eq_append_of_behind? hbehind, List.append_assoc]
  · have hbeyond : t.beyond = [] := by
      by_contra hne
      exact hmarker (h.ended hne).2
    rwa [hbeyond, List.append_nil]

namespace Lexer

variable {source : List Byte} {l l' m : Lexer} {token : Token} {b : Byte} {rest : List Byte}
  {g : Gap} {kind : Kind} {n : Nat}

/-! ### Places -/

/-- The piece of layout that begins the bytes ahead. -/
def gap? (l : Lexer) : Option Gap :=
  Gap.read? (l.tape.isLineStart l.tape.pos) l.tape.rest

/-- The lexer behind a piece of layout. -/
def pass (g : Gap) (l : Lexer) : Lexer :=
  ⟨l.tape.advanceBy g.length, l.stack.withLookback (l.stack.top.lookback.afterGap g.separates)⟩

/-- On the way from `l` to the next token, the bytes ahead of `m` are looked at as those of
statements: the first ones, and those behind each piece of layout. -/
inductive Scans (l : Lexer) : Lexer → Prop
  | here (h : l.stack.top.region.holdsStatements) : Scans l l
  | behind {m : Lexer} {g : Gap} (h : Scans l m) (hg : m.gap? = some g) : Scans l (m.pass g)

theorem pos_pass (hg : m.gap? = some g) : (m.pass g).pos = m.pos + g.length :=
  (Tape.onward_advanceBy ⟨0, 0⟩ (Gap.length_le_of_read? hg)).pos

theorem Sound.pass (h : Sound source m) (hg : m.gap? = some g) : Sound source (m.pass g) where
  reads := by
    have hmove := Tape.onward_advanceBy (t := m.tape) ⟨0, 0⟩ (Gap.length_le_of_read? hg)
    have hle : m.pos ≤ (m.pass g).pos := (Nat.le_add_right _ _).trans_eq (pos_pass hg).symm
    refine ⟨h.reads.tape.onward hmove, fun f hf => ?_⟩
    rcases List.mem_cons.mp hf with rfl | hf
    · exact (h.reads.named m.stack.top List.mem_cons_self).mono hle
    · exact (h.reads.named f (List.mem_cons_of_mem _ hf)).mono hle
  identified := by
    intro f hf
    rw [Lexer.pass, Tape.buffer_advanceBy]
    rcases List.mem_cons.mp hf with rfl | hf
    · exact h.identified m.stack.top List.mem_cons_self
    · exact h.identified f (List.mem_cons_of_mem _ hf)
  holds := h.holds

/-- Behind a piece of layout the lexer settles where it would have settled in front of it. -/
theorem settle_pass (h : m.stack.top.region.holdsStatements) (hg : m.gap? = some g) :
    (m.pass g).settle = m.settle := by
  have hpassed : (m.pass g).stack.top.region.holdsStatements := h
  rw [settle_of_holdsStatements h, settle_of_holdsStatements hpassed, Tape.skipLayout_of_some hg]
  rfl

namespace Scans

theorem holdsStatements (h : l.Scans m) : m.stack.top.region.holdsStatements := by
  induction h with
  | here h => exact h
  | behind _ _ ih => exact ih

theorem sound (h : l.Scans m) (hl : Sound source l) : Sound source m := by
  induction h with
  | here => exact hl
  | behind _ hg ih => exact ih.pass hg

/-- **The call goes on from each of the places.** -/
theorem next_eq (h : l.Scans m) : l.next = m.next := by
  rw [next, next]
  congr 1
  induction h with
  | here => rfl
  | behind h hg ih => rw [settle_pass h.holdsStatements hg, ih]

end Scans

/-! ### Bytes at a place -/

/-- The lexer of `source` looks at the bytes `b :: rest` as those of a statement; no end marker
stands there. -/
structure Facing (source : List Byte) (b : Byte) (rest : List Byte) (m : Lexer) : Prop where
  sound : Sound source m
  holds : m.stack.top.region.holdsStatements
  rest_eq : m.tape.rest = b :: rest
  beyond : m.tape.beyond = []
  marker : ¬ EndMarkerAt source m.pos

/-- The bytes of the script at a place are those that the lexer looks at. -/
theorem Scans.facing (h : l.Scans m) (hl : Sound source l) (hsource : source.drop m.pos = b :: rest)
    (hmarker : ¬ EndMarkerAt source m.pos) : m.Facing source b rest := by
  have hm := h.sound hl
  have hbeyond : m.tape.beyond = [] := by
    by_contra hne
    exact hmarker (hm.reads.tape.ended hne).2
  have hahead := hm.reads.tape.ahead
  rw [hbeyond, List.append_nil] at hahead
  exact ⟨hm, h.holdsStatements, hahead.trans hsource, hbeyond, hmarker⟩

/-- Only an underscore begins an end marker. -/
theorem not_endMarkerAt {p : Nat} (hsource : source.drop p = b :: rest)
    (hb : b ≠ Byte.ofChar '_') : ¬ EndMarkerAt source p := by
  rintro ⟨-, behind, hmarker, -⟩
  rw [hsource] at hmarker
  exact hb (List.cons.inj hmarker).1

/-- `token` is made of the next `n` bytes and no more: the lexer goes on right behind them, the
token counts for the construct that it stands in, and nothing is rewritten or reported. -/
structure Takes (m : Lexer) (token : Token) (n : Nat) (l' : Lexer) : Prop where
  begins : token.pos = m.pos
  ends : l'.pos = m.pos + n
  stack : l'.stack = m.stack.commit .stay token.kind
  buffer : l'.tape.buffer = m.tape.buffer
  diagnostic : l'.diagnostic = m.diagnostic

theorem takes_advanceBy (hn : n ≤ m.tape.rest.length) (hbegins : token.pos = m.pos) :
    m.Takes token n ⟨m.tape.advanceBy n, m.stack.commit .stay token.kind⟩ where
  begins := hbegins
  ends := (Tape.onward_advanceBy ⟨0, 0⟩ hn).pos
  stack := rfl
  buffer := Tape.buffer_advanceBy n m.tape
  diagnostic := rfl

namespace Facing

variable (h : m.Facing source b rest)

include h

/-- A line begins at a place if one does in the script. -/
theorem isLineStart_eq : m.tape.isLineStart m.tape.pos = Line.startsBehind (source.take m.pos) := by
  rw [Tape.isLineStart_pos, Line.startsBehind, h.sound.reads.tape.last, Line.startsBehind, pos]

theorem drop_eq : source.drop m.pos = b :: rest := by
  rw [← h.rest_eq, ← List.append_nil m.tape.rest, ← h.beyond]
  exact h.sound.reads.tape.ahead.symm

theorem pos_add_length : m.pos + (b :: rest).length = source.length := by
  have hle : m.pos ≤ source.length := h.sound.reads.tape.pos_le
  rw [← h.drop_eq, List.length_drop, Nat.add_sub_cancel' hle]

/-- Where no layout begins the lexer has settled. -/
theorem settle_eq (hgap : m.gap? = none) : m.settle = m := by
  rw [settle_of_holdsStatements h.holds, Tape.skipLayout_of_none hgap,
    h.sound.reads.tape.honourEndMarker_eq h.marker]
  rfl

/-- No layout begins with a byte that is neither blank nor begins a comment or joins lines. -/
theorem gap?_eq_none (hblank : b.isBlank = false) (hhash : b ≠ Byte.ofChar '#')
    (hbackslash : b ≠ Byte.ofChar '\\')
    (hopens : ¬ BlockComment.opensAt (Line.startsBehind (source.take m.pos)) (b :: rest)) :
    m.gap? = none := by
  rw [gap?, h.rest_eq, h.isLineStart_eq]
  simp [Gap.read?, hblank, hhash, hbackslash, hopens]

/-- Only an equals sign begins a block comment. -/
theorem gap?_of_ne_equals (hblank : b.isBlank = false) (hhash : b ≠ Byte.ofChar '#')
    (hbackslash : b ≠ Byte.ofChar '\\') (hequals : b ≠ Byte.ofChar '=') : m.gap? = none :=
  h.gap?_eq_none hblank hhash hbackslash fun hopens =>
    hequals (BlockComment.head_of_opensAt hopens)

/-- The lexeme that begins the bytes lies within them. -/
theorem fits_of_read {lexeme : Lexeme} (hlexeme : Lexeme.read m.stack.top.lookback
      (Line.startsBehind (source.take m.pos)) b rest = lexeme) :
    lexeme.Fits m.tape.rest.length := by
  rw [h.rest_eq, ← hlexeme]
  exact Lexeme.fits_read m.stack.top.lookback rest _ b

variable (hgap : m.gap? = none) (hregion : m.stack.top.region.ReadsStatement b)

include hgap hregion

/-- **The call, by the lexeme that begins the bytes.** -/
theorem exists_reading :
    ∃ r, Reading.ofLexeme (Lexeme.read m.stack.top.lookback
          (Line.startsBehind (source.take m.pos)) b rest) m.tape = .ok r
      ∧ m.next = .ok (r.token, ⟨r.tape, m.stack.commit r.shift r.token.kind⟩) := by
  obtain ⟨r, n, hr, -, -⟩ := exists_read h.rest_eq (h.sound.reads.named _ List.mem_cons_self)
  have hnext : m.next = .ok (r.token, ⟨r.tape, m.stack.commit r.shift r.token.kind⟩) := by
    rw [next, h.settle_eq hgap, step, h.rest_eq]
    show (do let r ← read m.stack.top b rest m.tape; _) = _
    rw [hr]
    rfl
  rw [read_eq_statement hregion, Reading.statement, h.isLineStart_eq] at hr
  exact ⟨r, hr, hnext⟩

/-- A token without a literal. -/
theorem next_bare (hlexeme : Lexeme.read m.stack.top.lookback
      (Line.startsBehind (source.take m.pos)) b rest = .bare kind n) :
    ∃ l', m.next = .ok (.bare m.pos kind, l') ∧ m.Takes (.bare m.pos kind) n l' := by
  obtain ⟨r, hr, hnext⟩ := h.exists_reading hgap hregion
  rw [hlexeme] at hr
  cases hr
  exact ⟨_, hnext, takes_advanceBy (h.fits_of_read hlexeme).2.2 rfl⟩

/-- A token whose literal is its text. -/
theorem next_spelled (hlexeme : Lexeme.read m.stack.top.lookback
      (Line.startsBehind (source.take m.pos)) b rest = .spelled kind n) :
    ∃ l', let token := .withLiteral m.pos kind ⟨m.pos, m.pos + n⟩
      m.next = .ok (token, l') ∧ m.Takes token n l'
        ∧ l'.literal token = .ok (some ((b :: rest).take n)) := by
  have hn : n ≤ m.tape.rest.length := (h.fits_of_read hlexeme).2.2
  obtain ⟨r, hr, hnext⟩ := h.exists_reading hgap hregion
  rw [hlexeme] at hr
  obtain rfl := Reading.eq_of_spelled hr
  have hends : (m.tape.advanceBy n).pos = m.tape.pos + n := (Tape.onward_advanceBy ⟨0, 0⟩ hn).pos
  rw [hends] at hnext
  refine ⟨_, hnext, takes_advanceBy hn rfl, ?_⟩
  have hslice : (m.tape.advanceBy n).slice ⟨m.tape.pos, m.tape.pos + n⟩
      = .ok ((b :: rest).take n) := by
    rw [Tape.slice_eq_ok_iff, Tape.buffer_advanceBy, ← h.rest_eq]
    exact Tape.slice?_ahead (i := 0) (by omega)
  show ((m.tape.advanceBy n).slice ⟨m.tape.pos, m.tape.pos + n⟩).map some = _
  rw [hslice]
  rfl

end Facing

end Lexer

end ScriptLexer
