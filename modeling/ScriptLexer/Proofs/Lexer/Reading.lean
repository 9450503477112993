import ScriptLexer.Lexer.Next
import ScriptLexer.Proofs.Tape.Onward
import ScriptLexer.Proofs.Text.Stop

/-!
# What every reading keeps

All readers of tokens are alike in what they do to the tape. They read a number of bytes, they
rewrite bytes under the literal of their token only, and only if the token is one of text; the
literal lies in what has been read since the token began. `Reading.Lawful` says so, and each reader
is shown to give a reading that is lawful, with at least one byte. So no reader ever makes a call
outside a contract, and none stands still.

The body of a heredoc is the one reader that has to be promised something: the identifier that it
looks for lies in the buffer and has a byte. A lawful reading that opens a heredoc keeps that
promise.

## Main definitions

* `Token.rewritten` — the bytes that reading a token may rewrite
* `Reading.Lawful` — what a reading of a number of bytes keeps

## Main results

* `Lexer.exists_read` — the bytes that begin a token are read, lawfully
-/

namespace ScriptLexer

/-! ### What may be rewritten, and what is promised -/

/-- Whether literals of the kind may have been decoded in place. -/
def Kind.isRewritten : Kind → Bool
  | string | stringPart | heredocPart | heredocEnd | illegal => true
  | _ => false

theorem Kind.ofBytes_of_isRewritten {k : Kind} (h : k.isRewritten) : k.OfBytes := by
  constructor
  · rintro rfl
    cases h
  · rintro rfl
    cases h

/-- The bytes that reading a token may have rewritten. -/
def Token.rewritten (token : Token) : Span :=
  if token.kind.isRewritten then token.literal.getD ⟨token.pos, token.pos⟩
  else ⟨token.pos, token.pos⟩

theorem Token.rewritten_withLiteral {kind : Kind} (pos : Nat) (span : Span)
    (h : kind.isRewritten) : (Token.withLiteral pos kind span).rewritten = span :=
  if_pos h

/-- The identifier that a region waits for has a byte, and all its bytes have been read at `pos`. -/
def Region.Named (pos : Nat) : Region → Prop
  | heredocLine heredoc | heredocBody heredoc =>
    heredoc.identifier.start < heredoc.identifier.stop ∧ heredoc.identifier.stop ≤ pos
  | statements | quoted _ | interpolation _ => True

theorem Region.Named.mono {pos pos' : Nat} {region : Region} (hpos : pos ≤ pos')
    (h : region.Named pos) : region.Named pos' := by
  cases region with
  | heredocLine heredoc | heredocBody heredoc => exact ⟨h.1, Nat.le_trans h.2 hpos⟩
  | statements | quoted _ | interpolation _ => trivial

/-- The region that a token opens, if it opens one, has been named. -/
def Shift.Named (pos : Nat) : Shift → Prop
  | push region | swap region => region.Named pos
  | stay | pop => True

namespace Reading

/-- A reading of `n` bytes ahead of `t`, for a token that began at `pos`. -/
structure Lawful (pos n : Nat) (t : Tape) (r : Reading) : Prop where
  begins : r.token.pos = pos
  kind : r.token.kind.OfBytes
  onward : Tape.Onward n r.token.rewritten t r.tape
  literal : ∀ s, r.token.literal = some s →
    pos ≤ s.start ∧ s.start ≤ s.stop ∧ s.stop ≤ r.tape.pos
  opened : r.shift.Named r.tape.pos

variable {pos n m : Nat} {t t' : Tape} {kind : Kind} {shift : Shift}

/-- An opener in front of a literal counts for its token. -/
theorem Lawful.behind_opener {r : Reading} (hm : m ≤ t.rest.length)
    (h : r.Lawful pos n (t.advanceBy m)) : r.Lawful pos (m + n) t where
  begins := h.begins
  kind := h.kind
  onward := (Tape.onward_advanceBy _ hm).trans h.onward
  literal := h.literal
  opened := h.opened

/-! ### Tokens that rewrite nothing -/

theorem lawful_bare (pos : Nat) (hkind : kind.OfBytes) (hmove : ∀ s, Tape.Onward n s t t') :
    (bare pos kind t').Lawful pos n t where
  begins := rfl
  kind := hkind
  onward := hmove _
  literal s h := by cases h
  opened := trivial

/-- A token whose literal is its own text is read, whatever it opens. -/
theorem exists_spelled (shift : Shift) {start : Nat} (hkind : kind.OfBytes)
    (hmove : ∀ s, Tape.Onward n s t t') (hstart : pos ≤ start) (hstop : start ≤ t'.pos)
    (hopened : shift.Named t'.pos) :
    ∃ r, spelled pos start kind shift t' = .ok r ∧ r.Lawful pos n t := by
  refine ⟨withLiteral pos kind ⟨start, t'.pos⟩ shift t', ?_, ?_⟩
  · rw [spelled, Span.between, if_pos hstop]
    rfl
  · constructor
    · rfl
    · exact hkind
    · exact hmove _
    · intro s hs
      cases hs
      exact ⟨hstart, hstop, Nat.le_refl _⟩
    · exact hopened

/-! ### Tokens of text -/

section Text

variable (style : Style) (lineStart : Bool) (t : Tape)

/-- The span of a passage that is decoded in place where the tape stands. -/
def textSpan : Span :=
  ⟨t.pos, t.pos + (style.passage lineStart t.rest).text.length⟩

theorem decodedSpan_transcriptOf :
    decodedSpan t.pos (t.transcriptOf [] 0 (style.passage lineStart t.rest))
      = .ok (textSpan style lineStart t) := by
  rw [decodedSpan, Tape.behind_transcriptOf (Tape.ahead_passage style lineStart t)]
  show Span.between _ _ = _
  rw [Span.between, if_pos (Nat.le_add_right _ _)]
  rfl

/-- **A segment of text is read lawfully,** if what follows the passage is only read. -/
theorem lawful_text {style : Style} {lineStart : Bool} {t : Tape} (hkind : kind.isRewritten)
    (hpos : pos ≤ t.pos)
    (hmove : ∀ s, Tape.Onward m s
      (t.transcriptOf [] 0 (style.passage lineStart t.rest)).tape t')
    (hopened : shift.Named t'.pos) :
    (withLiteral pos kind (textSpan style lineStart t) shift t').Lawful pos
      ((style.passage lineStart t.rest).length + m) t := by
  have honward := (Tape.onward_transcriptOf style lineStart t).trans (hmove _)
  have htext := (Tape.ahead_passage style lineStart t).text_le
  have hlength := honward.pos
  constructor
  · rfl
  · exact Kind.ofBytes_of_isRewritten hkind
  · show Tape.Onward _ (Token.withLiteral pos kind _).rewritten t t'
    rw [Token.rewritten_withLiteral pos _ hkind]
    exact honward
  · intro s hs
    cases hs
    refine ⟨hpos, Nat.le_add_right _ _, ?_⟩
    show t.pos + _ ≤ t'.pos
    omega
  · exact hopened

variable {style lineStart t}

/-- What closes a passage can be read behind it. -/
theorem onward_closed {k : Nat} (hstop : (style.passage lineStart t.rest).stop = .closed k)
    (s : Span) :
    let tape := (t.transcriptOf [] 0 (style.passage lineStart t.rest)).tape
    Tape.Onward k s tape (tape.advanceBy k) := by
  have hle := Style.length_stop_le style lineStart t.rest
  rw [hstop, Stop.length] at hle
  refine Tape.onward_advanceBy s ?_
  rw [(Tape.onward_transcriptOf style lineStart t).rest, List.length_drop]
  omega

end Text

/-- Verbatim text is read lawfully. -/
theorem exists_verbatim (close : Byte) (hpos : pos ≤ t.pos) :
    ∃ r n, verbatim pos close t = .ok r ∧ r.Lawful pos n t := by
  rw [verbatim, Tape.transcribe_eq]
  simp only [bind, Except.bind, decodedSpan_transcriptOf]
  simp only [Tape.transcriptOf]
  split
  · rename_i k hstop
    exact ⟨_, _, rfl, lawful_text (by rfl) hpos (onward_closed hstop) trivial⟩
  · exact ⟨_, _, rfl, lawful_text (by rfl) hpos (fun s => Tape.onward_noteAt _ _ s _) trivial⟩

/-- A segment of decoded text is read lawfully, and counts what closes it. -/
theorem exists_segment (close : Byte) (resumed : Bool) (hpos : pos ≤ t.pos) :
    let p := (Style.decoded close).passage false t.rest
    ∃ r, segment pos close resumed t = .ok r ∧ r.Lawful pos (p.length + p.stop.length) t := by
  intro p
  rw [segment, Tape.transcribe_eq]
  simp only [bind, Except.bind, decodedSpan_transcriptOf]
  simp only [Tape.transcriptOf]
  split
  · rename_i hstop
    rw [show p.stop = .interpolation from hstop]
    refine ⟨_, rfl, lawful_text (by rfl) hpos (fun s => Tape.Onward.refl s _) ?_⟩
    cases resumed <;> trivial
  · rename_i k hstop
    rw [show p.stop = .closed k from hstop]
    refine ⟨_, rfl, lawful_text (by rfl) hpos (onward_closed hstop) ?_⟩
    cases resumed <;> trivial
  · rename_i hstop
    rw [show p.stop = .endOfInput from hstop]
    exact ⟨_, rfl, lawful_text (by rfl) hpos (fun s => Tape.onward_noteAt _ _ s _) trivial⟩

/-! ### Introducers -/

/-- An introducer is read lawfully, if one stands here. -/
theorem introducer?_cases (t : Tape) :
    (introducer? t = .ok none ∧ Introducer.read? t.rest = none)
      ∨ ∃ r n, introducer? t = .ok (some r) ∧ 0 < n ∧ r.Lawful t.pos n t := by
  rw [introducer?]
  cases hintroducer : Introducer.read? t.rest with
  | none => exact .inl ⟨rfl, rfl⟩
  | some i =>
    have hwithin := Introducer.within_read? hintroducer
    cases i with
    | statements =>
      refine .inr ⟨_, 2, rfl, Nat.two_pos, ?_⟩
      constructor
      · rfl
      · simp [Kind.OfBytes, Token.bare]
      · exact Tape.onward_advanceBy _ hwithin
      · intro s h
        cases h
      · trivial
    | variableName kind length =>
      obtain ⟨hkind, hpos, hle⟩ := hwithin
      have hmove : ∀ s, Tape.Onward (1 + length) s t (t.advanceBy (1 + length)) :=
        fun s => Tape.onward_advanceBy s hle
      have hstop : t.pos + 1 ≤ (t.advanceBy (1 + length)).pos := by
        rw [(hmove ⟨0, 0⟩).pos]
        omega
      obtain ⟨r, hr, hlawful⟩ := exists_spelled .stay hkind hmove (Nat.le_add_right _ 1) hstop
        trivial
      refine .inr ⟨r, 1 + length, ?_, Nat.add_pos_left Nat.one_pos _, hlawful⟩
      simp only [hr]
      rfl

/-- The text of a string behind an interpolation is read lawfully. -/
theorem exists_resumedString (close : Byte) (hrest : t.rest ≠ []) :
    ∃ r n, resumedString close t = .ok r ∧ 0 < n ∧ r.Lawful t.pos n t := by
  rw [resumedString]
  rcases introducer?_cases t with ⟨hnone, hread⟩ | ⟨r, n, hsome, hn, hlawful⟩
  · obtain ⟨r, hr, hlawful⟩ := exists_segment close true (Nat.le_refl t.pos)
    rw [hnone]
    have hcloses : (Style.decoded close).Closes := trivial
    exact ⟨r, _, hr, Style.length_stop_pos false hrest hcloses fun _ => hread, hlawful⟩
  · rw [hsome]
    exact ⟨r, n, rfl, hn, hlawful⟩

/-! ### Heredocs -/

variable {heredoc : Heredoc}

/-- A heredoc whose identifier has been read has a style, and what closes the style has a byte. -/
theorem exists_heredocStyle (h : (Region.heredocBody heredoc).Named t.pos) :
    ∃ style, heredocStyle heredoc t = .ok style ∧ style.Closes
      ∧ style.decodes = !heredoc.verbatim := by
  obtain ⟨hlt, hle⟩ := h
  have hsize : heredoc.identifier.stop ≤ t.buffer.length := by
    rw [Tape.length_buffer, Tape.size]
    rw [Tape.pos] at hle
    omega
  have hslice : t.slice heredoc.identifier
      = .ok ((t.buffer.drop heredoc.identifier.start).take heredoc.identifier.length) := by
    rw [Tape.slice_eq_ok_iff, Span.slice?, if_pos ⟨Nat.le_of_lt hlt, hsize⟩]
  have hne : (t.buffer.drop heredoc.identifier.start).take heredoc.identifier.length ≠ [] := by
    refine List.ne_nil_of_length_pos ?_
    rw [List.length_take, List.length_drop, Span.length]
    omega
  rw [heredocStyle, hslice]
  cases hverbatim : heredoc.verbatim with
  | true => exact ⟨_, rfl, hne, rfl⟩
  | false => exact ⟨_, rfl, hne, rfl⟩

/-- A segment of a heredoc's body is read lawfully, and has a byte if no introducer begins it. -/
theorem exists_bodySegment (h : (Region.heredocBody heredoc).Named t.pos) (hrest : t.rest ≠ [])
    (hintroducer : heredoc.verbatim = false → Introducer.read? t.rest = none) :
    ∃ r n, bodySegment heredoc t = .ok r ∧ 0 < n ∧ r.Lawful t.pos n t := by
  obtain ⟨style, hstyle, hcloses, hdecodes⟩ := exists_heredocStyle h
  have hpos := Style.length_stop_pos (t.isLineStart t.pos) hrest hcloses fun hd =>
    hintroducer (by simpa [hd] using hdecodes)
  rw [bodySegment, hstyle]
  simp only [bind, Except.bind, Tape.transcribe_eq, decodedSpan_transcriptOf]
  simp only [Tape.transcriptOf]
  split
  · rename_i hstop
    rw [hstop] at hpos
    exact ⟨_, _, rfl, hpos, lawful_text (by rfl) (Nat.le_refl _)
      (fun s => Tape.Onward.refl s _) trivial⟩
  · rename_i k hstop
    rw [hstop] at hpos
    exact ⟨_, _, rfl, hpos, lawful_text (by rfl) (Nat.le_refl _) (onward_closed hstop) trivial⟩
  · rename_i hstop
    rw [hstop] at hpos
    exact ⟨_, _, rfl, hpos, lawful_text (by rfl) (Nat.le_refl _)
      (fun s => Tape.onward_noteAt _ _ s _) trivial⟩

theorem exists_heredocBody (h : (Region.heredocBody heredoc).Named t.pos) (hrest : t.rest ≠ []) :
    ∃ r n, heredocBody heredoc t = .ok r ∧ 0 < n ∧ r.Lawful t.pos n t := by
  rw [heredocBody]
  split
  · rename_i hverbatim
    exact exists_bodySegment h hrest fun hfalse => by simp [hverbatim] at hfalse
  · rcases introducer?_cases t with ⟨hnone, hread⟩ | ⟨r, n, hsome, hn, hlawful⟩
    · rw [hnone]
      exact exists_bodySegment h hrest fun _ => hread
    · rw [hsome]
      exact ⟨r, n, rfl, hn, hlawful⟩

/-! ### Statements -/

/-- **The token of a lexeme that fits the bytes ahead is read lawfully.** -/
theorem exists_ofLexeme {lexeme : Lexeme} (hfits : lexeme.Fits t.rest.length) :
    ∃ r n, ofLexeme lexeme t = .ok r ∧ 0 < n ∧ r.Lawful t.pos n t := by
  have hadvance : ∀ {k}, k ≤ t.rest.length → ∀ s, Tape.Onward k s t (t.advanceBy k) :=
    fun hk s => Tape.onward_advanceBy s hk
  have hpos : ∀ {k}, k ≤ t.rest.length → (t.advanceBy k).pos = t.pos + k :=
    fun hk => (hadvance hk ⟨0, 0⟩).pos
  cases lexeme with
  | bare kind length =>
    obtain ⟨hkind, hlength, hle⟩ := hfits
    exact ⟨_, length, rfl, hlength, lawful_bare t.pos hkind (hadvance hle)⟩
  | spelled kind length =>
    obtain ⟨hkind, hlength, hle⟩ := hfits
    obtain ⟨r, hr, hlawful⟩ := exists_spelled .stay hkind (hadvance hle) (Nat.le_refl t.pos)
      (by rw [hpos hle]; omega) trivial
    exact ⟨r, length, hr, hlength, hlawful⟩
  | quoted isVerbatim close opener =>
    obtain ⟨hopener, hle⟩ := hfits
    have hbehind : t.pos ≤ (t.advanceBy opener).pos := by
      rw [hpos hle]
      omega
    cases isVerbatim with
    | true =>
      obtain ⟨r, n, hr, hlawful⟩ := exists_verbatim close hbehind
      exact ⟨r, opener + n, hr, Nat.add_pos_left hopener n, hlawful.behind_opener hle⟩
    | false =>
      obtain ⟨r, hr, hlawful⟩ := exists_segment close false hbehind
      exact ⟨r, opener + _, hr, Nat.add_pos_left hopener _, hlawful.behind_opener hle⟩
  | heredoc opener =>
    obtain ⟨hsize, hinside, hle⟩ := hfits
    have hstop := hpos hle
    have hkind : Kind.heredocBegin.OfBytes := by simp [Kind.OfBytes]
    simp only [ofLexeme, Span.between, if_pos (Nat.le_add_right _ opener.size)]
    obtain ⟨r, hr, hlawful⟩ := exists_spelled (.push (.heredocLine ⟨⟨t.pos + 2 + opener.offset,
        t.pos + 2 + opener.offset + opener.size⟩, opener.indented, opener.verbatim⟩))
      hkind (hadvance hle) (Nat.le_refl t.pos) (by omega) (by
        constructor
        · exact Nat.lt_add_of_pos_right hsize
        · simp only
          omega)
    exact ⟨r, _, hr, Nat.add_pos_left Nat.two_pos _, hlawful⟩
  | malformed cause length shown =>
    obtain ⟨hlength, hle⟩ := hfits
    have hkind : Kind.illegal.OfBytes := by simp [Kind.OfBytes]
    have hmove : ∀ s, Tape.Onward length s t ((t.noteAt t.pos cause).advanceBy length) := by
      intro s
      have hle' : length ≤ (t.noteAt t.pos cause).rest.length := by rwa [Tape.rest_noteAt]
      have hboth := (Tape.onward_noteAt t.pos cause s t).trans (Tape.onward_advanceBy s hle')
      rwa [Nat.zero_add] at hboth
    cases shown with
    | true =>
      obtain ⟨r, hr, hlawful⟩ := exists_spelled .stay hkind hmove (Nat.le_refl t.pos)
        (by rw [(hmove ⟨0, 0⟩).pos]; omega) trivial
      exact ⟨r, length, hr, hlength, hlawful⟩
    | false => exact ⟨_, length, rfl, hlength, lawful_bare t.pos hkind hmove⟩

end Reading

/-- **The bytes that begin a token are read lawfully,** in every region whose heredoc, if it has
one, has been named. -/
theorem Lexer.exists_read {f : Frame} {t : Tape} {b : Byte} {rest : List Byte}
    (hrest : t.rest = b :: rest) (hf : f.region.Named t.pos) :
    ∃ r n, read f b rest t = .ok r ∧ 0 < n ∧ r.Lawful t.pos n t := by
  have hne : t.rest ≠ [] := by
    rw [hrest]
    exact List.cons_ne_nil b rest
  have hstatement : ∀ l, ∃ r n, Reading.statement l b rest t = .ok r ∧ 0 < n
      ∧ r.Lawful t.pos n t := by
    intro l
    refine Reading.exists_ofLexeme ?_
    rw [hrest]
    exact Lexeme.fits_read l rest _ b
  have hone : ∀ s, Tape.Onward 1 s t t.advance := fun s => Tape.onward_advance s hne
  obtain ⟨region, lookback⟩ := f
  cases region with
  | statements => exact hstatement lookback
  | quoted close => exact Reading.exists_resumedString close hne
  | interpolation braces =>
    simp only [read]
    split
    · refine ⟨_, 1, rfl, Nat.one_pos, ?_⟩
      have hkind : Kind.insertEnd.OfBytes := by simp [Kind.OfBytes]
      have hbare := Reading.lawful_bare t.pos hkind hone
      exact ⟨rfl, hbare.kind, hbare.onward, hbare.literal, trivial⟩
    · exact hstatement lookback
  | heredocLine heredoc =>
    simp only [read]
    split
    · refine ⟨_, 1, rfl, Nat.one_pos, ?_⟩
      have hkind : Kind.newLine.OfBytes := by simp [Kind.OfBytes]
      have hbare := Reading.lawful_bare t.pos hkind hone
      refine ⟨rfl, hbare.kind, hbare.onward, hbare.literal, ?_⟩
      -- The body waits for the identifier that the line waited for.
      have hbody : (Region.heredocBody heredoc).Named t.pos := hf
      exact hbody.mono (by rw [(hone ⟨0, 0⟩).pos]; omega)
    · exact hstatement lookback
  | heredocBody heredoc => exact Reading.exists_heredocBody hf hne

end ScriptLexer
