import ScriptLexer.Proofs.Lexer.Faces
import ScriptLexer.Proofs.Lexer.Spelling

/-!
# The token that begins at an offset

What is said about the bytes of a script at the place where a token of statements begins is said of
a lexeme: the call that answers with the token reads the lexeme that these bytes begin, with the
lookback that is left when the lexer has settled. `Lexer.Sound.exists_lexeme` says so, whatever has
been read before, and the lemmas behind it say what the token is for each sort of lexeme.

The bytes are those of the script and not of the buffer, since what is ahead is never rewritten.

## Main results

* `Lexer.Sound.exists_lexeme` — the lexeme that begins the bytes is read
* `Lexer.Sound.exists_spelled` — a token that shows its text comes from a lexeme
* `Lexer.Sound.next_spelled`, `Lexer.Sound.next_bare`, `Lexer.Sound.next_quoted` — the token is then
  told by the lexeme
-/

namespace ScriptLexer

/-- A token that is spelled out has the bytes from `start` on as its literal. -/
theorem Reading.eq_of_spelled {pos start : Nat} {kind : Kind} {shift : Shift} {t : Tape}
    {r : Reading} (h : spelled pos start kind shift t = .ok r) :
    r = withLiteral pos kind ⟨start, t.pos⟩ shift t := by
  obtain ⟨span, hspan, h⟩ := exists_of_bind_eq_ok h
  cases h
  rw [Span.between] at hspan
  split at hspan <;> cases hspan
  rfl

/-- A token that is no text and opens no heredoc is bare or spelled out. -/
theorem Outcome.lexeme_of_kind {bytes : List Byte} {lexeme : Lexeme} {kind : Kind}
    (hkind : (ofLexeme bytes lexeme).kind = kind) (htext : kind.isRewritten = false)
    (hheredoc : kind ≠ .heredocBegin) : ∃ n, lexeme = .bare kind n ∨ lexeme = .spelled kind n := by
  subst hkind
  have hending : ∀ {style opener} {ending : Stop → Ending},
      (∀ stop, (ending stop).kind.isRewritten) →
      (text style false ending opener bytes).kind.isRewritten = true :=
    fun hending => hending _
  cases lexeme with
  | bare kind n => exact ⟨n, .inl rfl⟩
  | spelled kind n => exact ⟨n, .inr rfl⟩
  | heredoc opener => exact absurd rfl hheredoc
  | malformed cause n shown => cases htext
  | quoted isVerbatim close opener =>
    cases isVerbatim with
    | true => exact absurd (hending fun stop => by cases stop <;> rfl) (Bool.eq_false_iff.mp htext)
    | false => exact absurd (hending fun stop => by cases stop <;> rfl) (Bool.eq_false_iff.mp htext)

/-- A name is not of the kind of a number. -/
theorem Name.not_mem_kinds {defining : Bool} {bytes : List Byte} {kind : Kind} {n : Nat}
    (h : read defining bytes = (kind, n)) : kind ∉ Number.kinds := by
  have hshape := kind_shape defining bytes
  simp only [read] at h
  split at h <;> cases h
  · simp [Number.kinds]
  · simp only [List.mem_cons, List.not_mem_nil, or_false] at hshape
    rcases hshape with h | h | h <;> rw [h] <;> simp [Number.kinds]

namespace Lexeme.Form

variable {l : Lookback} {lineStart : Bool} {bytes : List Byte} {kind : Kind} {n : Nat}

/-- Only a token without text is bare. -/
theorem hasLiteral_eq_false (h : (bare kind n).Form l lineStart bytes) :
    kind.hasLiteral = false := by
  cases h <;> rfl

/-- What is spelled out, and is no number and no variable, is a name. -/
theorem read_name (h : (spelled kind n).Form l lineStart bytes) (hnumber : kind ∉ Number.kinds)
    (hsigil : kind.isSigiled = false) : Name.read l.defining bytes = (kind, n) := by
  cases h with
  | name _ hread _ => exact hread
  | number => exact absurd (Number.kind_read _) hnumber
  | signedNumber => exact absurd (Number.kind_read _) hnumber
  | named hread => exact absurd (Variable.isSigiled_of_read? hread) (Bool.eq_false_iff.mp hsigil)

/-- What is spelled out and is of the kind of a number is one, with a sign or without. -/
theorem startsNumber (h : (spelled kind n).Form l lineStart bytes) (hkind : kind ∈ Number.kinds) :
    Number.startsWithDigit bytes ∨ ∃ sign rest, bytes = sign :: rest
      ∧ (sign = Byte.ofChar '+' ∨ sign = Byte.ofChar '-') ∧ l.abuts = false
      ∧ Number.startsWithDigit rest := by
  cases h with
  | number hdigit => exact .inl hdigit
  | signedNumber hsign hdigit habuts => exact .inr ⟨_, _, rfl, hsign, habuts, hdigit⟩
  | name _ hread _ => exact absurd hkind (Name.not_mem_kinds hread)
  | named hread =>
    have hsigil := Variable.isSigiled_of_read? hread
    revert hsigil hkind
    cases kind <;> simp [Kind.isSigiled, Number.kinds]

end Lexeme.Form

theorem Byte.not_isIdentStart_of_isDecimal {b : Byte} (h : b.isDecimal) : ¬ b.isIdentStart := by
  intro hstart
  have hunderscore : (Byte.ofChar '_').toNat = 95 := rfl
  simp only [isDecimal, isIdentStart, isLetter, isLowercase, isUppercase, Bool.or_eq_true,
    Bool.and_eq_true, decide_eq_true_eq, beq_iff_eq, UInt8.le_iff_toNat_le, UInt8.reduceToNat,
    ← UInt8.toNat_inj, hunderscore] at h hstart
  omega

/-- A digit begins a number. -/
theorem Lexeme.read_digit (l : Lookback) (lineStart : Bool) {b : Byte} (hdigit : b.isDecimal)
    (rest : List Byte) :
    read l lineStart b rest = .spelled (Number.read (b :: rest)).1 (Number.read (b :: rest)).2 := by
  rw [read.eq_def, if_neg (Byte.not_isIdentStart_of_isDecimal hdigit), if_pos hdigit]

/-- A sign in front of a digit, by whether it touches the token in front of it. -/
theorem Lexeme.read_sign (l : Lookback) (lineStart : Bool) {sign digit : Byte} {rest : List Byte}
    (hsign : sign = Byte.ofChar '+' ∨ sign = Byte.ofChar '-') (hdigit : digit.isDecimal) :
    read l lineStart sign (digit :: rest)
      = if l.abuts then
          .bare (.punctuator (if sign = Byte.ofChar '+' then .plus else .minus)) 1
        else .spelled (Number.read (digit :: rest)).1 ((Number.read (digit :: rest)).2 + 1) := by
  have hread : read l lineStart sign (digit :: rest) = signed l sign (digit :: rest) := by
    rcases hsign with rfl | rfl <;> rfl
  have hstarts : Number.startsWithDigit (digit :: rest) = true := hdigit
  rw [hread, signed, hstarts, Bool.true_and]
  cases l.abuts with
  | false => rfl
  | true =>
    have hne : ∀ b : Byte, b.isDecimal = false → digit ≠ b := by
      rintro b hb rfl
      rw [hb] at hdigit
      cases hdigit
    have hequals := hne 0x3D rfl
    have hat := hne 0x40 rfl
    have hplus : Punctuator.plus.bytes.length = 1 := rfl
    have hminus : Punctuator.minus.bytes.length = 1 := rfl
    rcases hsign with rfl | rfl <;>
      simp [punctuation, Punctuator.read?, Punctuator.signed, Punctuator.withAssign, hequals, hat,
        hplus, hminus, Byte.ofChar]

namespace Lexer

variable {source : List Byte} {l l' : Lexer} {token : Token} {b : Byte} {rest : List Byte}
  {kind : Kind} {n : Nat}

/-- The lexeme that some bytes begin where the next token does. -/
def lexeme (l : Lexer) (b : Byte) (rest : List Byte) : Lexeme :=
  Lexeme.read l.settle.stack.top.lookback (l.settle.tape.isLineStart l.settle.tape.pos) b rest

/-- It comes from one of the rules. -/
theorem form_lexeme (l : Lexer) (b : Byte) (rest : List Byte) :
    (l.lexeme b rest).Form l.settle.stack.top.lookback
      (l.settle.tape.isLineStart l.settle.tape.pos) (b :: rest) :=
  Lexeme.form_read _ _ b rest

/-- Only an underscore can begin the bytes at the end of the script, that of an end marker. -/
theorem Moves.kind_ne_endOfInput (h : Moves source l token l')
    (hsource : source.drop token.pos = b :: rest) (hb : b ≠ Byte.ofChar '_') :
    token.kind ≠ .endOfInput := by
  intro hkind
  rcases h.ends hkind with hend | ⟨-, behind, hmarker, -⟩
  · rw [hend, List.drop_length] at hsource
    cases hsource
  · rw [hsource] at hmarker
    exact hb (List.cons.inj hmarker).1

/-- A token that does not stand for the end begins with the bytes ahead. -/
theorem Sound.settle_rest (h : Sound source l) (hnext : l.next = .ok (token, l'))
    (hkind : token.kind ≠ .endOfInput) (hsource : source.drop token.pos = b :: rest) :
    l.settle.tape.rest = b :: rest ∧ l.settle.pos = token.pos := by
  have hpos : token.pos = l.settle.pos := by
    rw [h.reads.pos_settle]
    exact (h.answers hnext).begins
  have hsettled := h.reads.settle.1.tape
  refine ⟨?_, hpos.symm⟩
  rcases next_cases hnext with ⟨-, rfl, -⟩ | ⟨b', rest', r, hrest, -⟩
  · exact absurd rfl hkind
  · have hahead := hsettled.ahead
    have hbeyond : l.settle.tape.beyond = [] := by
      by_contra hne
      rw [(hsettled.ended hne).1] at hrest
      cases hrest
    rw [hbeyond, List.append_nil] at hahead
    rw [hahead, ← hsource, hpos]
    rfl

/-- **The call reads the lexeme that begins the bytes.** -/
theorem Sound.exists_lexeme (h : Sound source l) (hnext : l.next = .ok (token, l'))
    (hkind : token.kind ≠ .endOfInput) (hsource : source.drop token.pos = b :: rest)
    (hregion : l.stack.top.region.ReadsStatement b) :
    ∃ r, Reading.ofLexeme (l.lexeme b rest) l.settle.tape = .ok r
      ∧ r.Matches source (.ofLexeme (b :: rest) (l.lexeme b rest)) l.settle.tape
      ∧ token = r.token ∧ l'.tape = r.tape := by
  obtain ⟨hrest, -⟩ := h.settle_rest hnext hkind hsource
  obtain ⟨lookback, hstack⟩ := exists_settle_stack l
  have hsettled : l.settle.stack.top.region.ReadsStatement b := by
    rw [hstack]
    exact hregion
  rcases next_cases hnext with ⟨hnil, -, -⟩ | ⟨b', rest', r, hcons, hr, htoken, htape⟩
  · rw [hrest] at hnil
    cases hnil
  · rw [hrest] at hcons
    cases hcons
    rw [read_eq_statement hsettled] at hr
    refine ⟨r, hr, ?_, htoken, by rw [htape]⟩
    have hfits : (l.lexeme b rest).Fits l.settle.tape.rest.length := by
      rw [hrest]
      exact Lexeme.fits_read l.settle.stack.top.lookback rest
        (l.settle.tape.isLineStart l.settle.tape.pos) b
    have hmatches := Reading.matches_ofLexeme h.reads.settle.1.tape hfits hr
    rwa [hrest] at hmatches

/-- Where a token is read that is no text and ends no construct, the bytes of statements are. -/
theorem readsStatement_of_read {f : Frame} {t : Tape} {r : Reading} (h : read f b rest t = .ok r)
    (hkind : r.token.kind.needsNoLexeme = false) : f.region.ReadsStatement b := by
  obtain ⟨hholds, hbrace, -⟩ := statement_of_read h hkind
  obtain ⟨region, lookback⟩ := f
  cases region with
  | statements => trivial
  | interpolation braces =>
    rintro ⟨rfl, hb⟩
    exact hbrace rfl hb
  | heredocLine heredoc =>
    rintro rfl
    simp only [read, if_pos] at h
    cases h
    cases hkind
  | quoted _ | heredocBody _ => cases hholds

/-- **A token that is no text and ends no construct is a lexeme of statements,** and not the end. -/
theorem Sound.exists_bytes (h : Sound source l) (hnext : l.next = .ok (token, l'))
    (hend : token.kind ≠ .endOfInput) (hkind : token.kind.needsNoLexeme = false) :
    ∃ b rest, source.drop token.pos = b :: rest ∧ l.stack.top.region.ReadsStatement b := by
  obtain ⟨lookback, hstack⟩ := exists_settle_stack l
  rcases next_cases hnext with ⟨-, rfl, -⟩ | ⟨b, rest, r, hrest, hr, rfl, -⟩
  · exact absurd rfl hend
  · have hpos : r.token.pos = l.settle.tape.pos := by
      have hbegins := (h.answers hnext).begins
      rwa [← h.reads.pos_settle] at hbegins
    refine ⟨b, rest ++ l.settle.tape.beyond, ?_, ?_⟩
    · rw [hpos, ← h.reads.settle.1.tape.ahead, hrest]
      rfl
    · have hreads := readsStatement_of_read hr hkind
      rwa [hstack] at hreads

/-- **A token that shows its text is a lexeme that is spelled out,** if it is no text, ends no
construct and is no variable, which may stand in text. -/
theorem Sound.exists_spelled (h : Sound source l) (hnext : l.next = .ok (token, l'))
    (hspelled : token.kind.Spelled) (hkind : token.kind.needsNoLexeme = false) :
    ∃ b rest n, source.drop token.pos = b :: rest ∧ l.stack.top.region.ReadsStatement b
      ∧ l.lexeme b rest = .spelled token.kind n := by
  have hend : token.kind ≠ .endOfInput := fun hend => by cases hend ▸ hspelled.2
  have hheredoc : token.kind ≠ .heredocBegin := fun hheredoc => by cases hheredoc ▸ hspelled.1
  have htext : token.kind.isRewritten = false := by
    simp only [Kind.needsNoLexeme, Bool.or_eq_false_iff] at hkind
    exact hkind.1.1.1.1
  obtain ⟨b, rest, hsource, hregion⟩ := h.exists_bytes hnext hend hkind
  obtain ⟨r, -, hmatches, htoken, -⟩ := h.exists_lexeme hnext hend hsource hregion
  have hlexeme : (Outcome.ofLexeme (b :: rest) (l.lexeme b rest)).kind = token.kind := by
    rw [htoken]
    exact hmatches.kind.symm
  obtain ⟨n, hbare | hread⟩ := Outcome.lexeme_of_kind hlexeme htext hheredoc
  · have hform := l.form_lexeme b rest
    rw [hbare] at hform
    exact absurd hspelled.2 (Bool.eq_false_iff.mp hform.hasLiteral_eq_false)
  · exact ⟨b, rest, n, hsource, hregion, hread⟩

section Lexeme

variable (h : Sound source l) (hnext : l.next = .ok (token, l'))
  (hkind : token.kind ≠ .endOfInput) (hsource : source.drop token.pos = b :: rest)
  (hregion : l.stack.top.region.ReadsStatement b)

include h hnext hkind hsource hregion

/-- A token whose literal is its text. -/
theorem Sound.next_spelled (hlexeme : l.lexeme b rest = .spelled kind n) :
    token = .withLiteral token.pos kind ⟨token.pos, token.pos + n⟩ ∧ l'.pos = token.pos + n
      ∧ l'.literal token = .ok (some ((b :: rest).take n)) := by
  have hmoves := h.reads.moves hnext
  obtain ⟨r, hr, hmatches, htoken, htape⟩ := h.exists_lexeme hnext hkind hsource hregion
  rw [hlexeme] at hr hmatches
  have hends : r.tape.pos = l.settle.tape.pos + n := hmatches.ends
  have hliteral : r.token.literal.bind (·.slice? r.tape.buffer) = some ((b :: rest).take n) :=
    hmatches.literal
  obtain rfl := Reading.eq_of_spelled hr
  rw [← htape, ← htoken] at hliteral
  refine ⟨?_, ?_, hmoves.literal_eq hliteral⟩
  · rw [htoken]
    exact congrArg (fun stop => Token.withLiteral l.settle.tape.pos kind ⟨_, stop⟩) hends
  · rw [pos, htape, htoken, hends]
    rfl

/-- A token without a literal. -/
theorem Sound.next_bare (hlexeme : l.lexeme b rest = .bare kind n) :
    token = .bare token.pos kind ∧ l'.pos = token.pos + n := by
  obtain ⟨r, hr, hmatches, htoken, htape⟩ := h.exists_lexeme hnext hkind hsource hregion
  rw [hlexeme] at hr hmatches
  have hends : r.tape.pos = l.settle.tape.pos + n := hmatches.ends
  cases hr
  refine ⟨by rw [htoken]; rfl, ?_⟩
  rw [pos, htape, htoken, hends]
  rfl

/-- A token of quoted text, which begins behind its opener. -/
theorem Sound.next_quoted {isVerbatim : Bool} {close : Byte}
    (hlexeme : l.lexeme b rest = .quoted isVerbatim close n) :
    token.kind ∈ [.string, .stringPart, .illegal]
      ∧ ∃ stop, token.literal = some ⟨token.pos + n, stop⟩ := by
  have hfits := Lexeme.fits_read l.settle.stack.top.lookback rest
    (l.settle.tape.isLineStart l.settle.tape.pos) b
  obtain ⟨hrest, hpos⟩ := h.settle_rest hnext hkind hsource
  obtain ⟨r, hr, -, rfl, -⟩ := h.exists_lexeme hnext hkind hsource hregion
  have hopener : (l.settle.tape.advanceBy n).pos = r.token.pos + n := by
    rw [← hpos, Tape.pos_advanceBy, hrest, Nat.min_eq_left]
    · rfl
    · rw [show Lexeme.read _ _ b rest = _ from hlexeme] at hfits
      exact hfits.2
  rw [hlexeme] at hr
  cases isVerbatim with
  | true =>
    rw [Reading.ofLexeme, Reading.verbatim_eq] at hr
    cases hr
    refine ⟨?_, _, congrArg some (congrArg (Span.mk · _) hopener)⟩
    show (Ending.verbatim _).kind ∈ _
    cases ((Style.verbatim close).passage false (l.settle.tape.advanceBy n).rest).stop <;>
      simp [Ending.verbatim]
  | false =>
    rw [Reading.ofLexeme, Reading.segment_eq] at hr
    cases hr
    refine ⟨?_, _, congrArg some (congrArg (Span.mk · _) hopener)⟩
    show (Ending.quoted close false _).kind ∈ _
    cases ((Style.decoded close).passage false (l.settle.tape.advanceBy n).rest).stop <;>
      simp [Ending.quoted]

end Lexeme

end Lexer

end ScriptLexer
