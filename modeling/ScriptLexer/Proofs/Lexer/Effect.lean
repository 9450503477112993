import ScriptLexer.Proofs.Lexeme.Kinds
import ScriptLexer.Proofs.Lexer.Segment

/-!
# What a token does to the open constructs

The kind of a token and the region that it was read in leave little choice for what it does to the
stack. `Effect` lists the cases. Strings, heredocs and interpolations are opened and closed by kinds
of their own, but a string that nothing interrupts is never open, so its token opens and closes
nothing; and the one token that turns a construct into another is the line feed behind a heredoc's
opener.

A segment that is interrupted leaves its construct on top and an introducer ahead. That is the other
thing that a reading has to tell about constructs, since the next token is read from there.

## Main definitions

* `Effect` — what a token of a kind, read in a region, does to the open constructs
* `Reading.Nests` — what a reading in a region tells about constructs

## Main results

* `Lexer.nests_read` — every reading tells that
* `Lexer.next_cases` — a call ends the script, or commits a reading
-/

namespace ScriptLexer

/-- Whether the text of a region may be interrupted. -/
def Region.interpolates : Region → Bool
  | quoted _ => true
  | heredocBody heredoc => !heredoc.verbatim
  | statements | interpolation _ | heredocLine _ => false

/-- What a token of a kind does to the open constructs, if it is read in a region. -/
inductive Effect : Region → Kind → Shift → Prop
  | inside {region : Region} {kind : Kind} (hkind : kind.delimits = false) :
      Effect region kind .stay
  | wholeString {region : Region} (hregion : region.holdsStatements) : Effect region .string .stay
  | opensString {region : Region} {close : Byte} (hregion : region.holdsStatements) :
      Effect region .stringPart (.push (.quoted close))
  | resumesString {close : Byte} : Effect (.quoted close) .stringPart .stay
  | closesString {close : Byte} : Effect (.quoted close) .string .pop
  | opensHeredoc {region : Region} {heredoc : Heredoc} (hregion : region.holdsStatements) :
      Effect region .heredocBegin (.push (.heredocLine heredoc))
  | beginsBody {heredoc : Heredoc} :
      Effect (.heredocLine heredoc) .newLine (.swap (.heredocBody heredoc))
  | resumesBody {heredoc : Heredoc} (hdecoded : heredoc.verbatim = false) :
      Effect (.heredocBody heredoc) .heredocPart .stay
  | closesBody {heredoc : Heredoc} : Effect (.heredocBody heredoc) .heredocEnd .pop
  | opensInterpolation {region : Region} (hregion : region.interpolates) :
      Effect region .insertBegin (.push (.interpolation 0))
  | closesInterpolation : Effect (.interpolation 0) .insertEnd .pop

/-- Whether a token of the kind is a segment that is interrupted. -/
def Kind.isPart : Kind → Bool
  | stringPart | heredocPart => true
  | _ => false

/-- Whether a token of the kind may have been read otherwise than as a lexeme. -/
def Kind.needsNoLexeme (k : Kind) : Bool :=
  k.isRewritten || k.isSigiled || k == .insertBegin || k == .insertEnd || k == .newLine

theorem Kind.isPart_eq_false {k : Kind} (h : k.delimits = false) : k.isPart = false := by
  revert h
  cases k <;> simp [delimits, isPart]

namespace Reading

/-- What a reading in a region tells about constructs. -/
structure Nests (region : Region) (r : Reading) : Prop where
  effect : Effect region r.token.kind r.shift
  /-- Behind a segment that is interrupted stands an introducer. -/
  ahead : r.token.kind.isPart → (Introducer.read? r.tape.rest).isSome

variable {region : Region} {r : Reading} {t : Tape} {pos start : Nat} {kind : Kind} {shift : Shift}

/-! ### Tokens without text -/

theorem Nests.inside (hkind : r.token.kind.delimits = false) (hshift : r.shift = .stay) :
    r.Nests region where
  effect := hshift ▸ .inside hkind
  ahead h := by rw [Kind.isPart_eq_false hkind] at h; cases h

theorem exists_of_spelled (h : spelled pos start kind shift t = .ok r) :
    ∃ span, r = withLiteral pos kind span shift t := by
  obtain ⟨span, -, hr⟩ := exists_of_bind_eq_ok h
  cases hr
  exact ⟨span, rfl⟩

/-- A token that is spelled out stays inside, unless it is of a kind that delimits. -/
theorem nests_spelled (hkind : kind.delimits = false)
    (h : spelled pos start kind .stay t = .ok r) : r.Nests region := by
  obtain ⟨span, rfl⟩ := exists_of_spelled h
  exact .inside hkind rfl

theorem nests_introducer? (hregion : region.interpolates) (h : introducer? t = .ok (some r)) :
    r.Nests region := by
  rw [introducer?] at h
  split at h
  · cases h
  · cases h
    exact ⟨.opensInterpolation hregion, fun hpart => by cases hpart⟩
  · rename_i hread
    obtain ⟨r', hr', hsome⟩ := exists_of_bind_eq_ok (f := fun r => .ok (some r)) h
    cases hsome
    exact nests_spelled (Kind.spelled_of_isSigiled (Introducer.isSigiled_of_read? hread)).1 hr'

/-- An introducer is read where it stands, and is one of statements or of a variable. -/
theorem token_introducer? (h : introducer? t = .ok (some r)) :
    (r.token.kind = .insertBegin ∨ r.token.kind.isSigiled) ∧ r.token.pos = t.pos := by
  rw [introducer?] at h
  split at h
  · cases h
  · cases h
    exact ⟨.inl rfl, rfl⟩
  · rename_i hvariable
    obtain ⟨r', hr', hsome⟩ := exists_of_bind_eq_ok (f := fun r => .ok (some r)) h
    cases hsome
    obtain ⟨span, rfl⟩ := exists_of_spelled hr'
    exact ⟨.inr (Introducer.isSigiled_of_read? hvariable), rfl⟩

/-- An introducer that is ahead is read. -/
theorem exists_introducer {introducer : Option Reading} (h : (Introducer.read? t.rest).isSome)
    (hread : introducer? t = .ok introducer) : ∃ r, introducer = some r := by
  rw [introducer?] at hread
  split at hread
  · rename_i hnone
    rw [hnone] at h
    cases h
  · cases hread
    exact ⟨_, rfl⟩
  · obtain ⟨r, -, hsome⟩ := exists_of_bind_eq_ok (f := fun r => .ok (some r)) hread
    cases hsome
    exact ⟨r, rfl⟩

/-! ### Tokens of text -/

/-- A segment tells about constructs what its ending does, however its text stops. -/
theorem nests_text {style : Style} {lineStart : Bool} {ending : Stop → Ending}
    (heffect : ∀ stop, (stop = .interpolation → style.decodes) →
      Effect region (ending stop).kind (ending stop).shift)
    (hpart : ∀ stop, (ending stop).kind.isPart → stop = .interpolation) :
    (text pos style lineStart ending t).Nests region where
  effect := heffect _ fun hstop => (introduces_text pos t ending hstop).1
  ahead h := (introduces_text pos t ending (hpart _ h)).2

theorem nests_verbatim (hregion : region.holdsStatements) (pos : Nat) (close : Byte) :
    (text pos (.verbatim close) false Ending.verbatim t).Nests region := by
  refine nests_text (fun stop hstop => ?_) fun stop h => ?_
  · cases stop with
    | closed length => exact .wholeString hregion
    | interpolation => exact .inside rfl
    | endOfInput => exact .inside rfl
  · cases stop <;> cases h

theorem nests_quoted (hregion : region.holdsStatements) (pos : Nat) (close : Byte) :
    (text pos (.decoded close) false (Ending.quoted close false) t).Nests region := by
  refine nests_text (fun stop _ => ?_) fun stop h => ?_
  · cases stop with
    | closed length => exact .wholeString hregion
    | interpolation => exact .opensString hregion
    | endOfInput => exact .inside rfl
  · cases stop with
    | interpolation => rfl
    | closed length | endOfInput => cases h

theorem nests_resumed (pos : Nat) (close : Byte) :
    (text pos (.decoded close) false (Ending.quoted close true) t).Nests (.quoted close) := by
  refine nests_text (fun stop _ => ?_) fun stop h => ?_
  · cases stop with
    | closed length => exact .closesString
    | interpolation => exact .resumesString
    | endOfInput => exact .inside rfl
  · cases stop with
    | interpolation => rfl
    | closed length | endOfInput => cases h

theorem nests_body {heredoc : Heredoc} {style : Style} {lineStart : Bool}
    (hstyle : style.decodes = !heredoc.verbatim) :
    (text pos style lineStart Ending.body t).Nests (.heredocBody heredoc) := by
  refine nests_text (fun stop hstop => ?_) fun stop h => ?_
  · cases stop with
    | closed length => exact .closesBody
    | interpolation => exact .resumesBody (by simpa [hstyle] using hstop rfl)
    | endOfInput => exact .inside rfl
  · cases stop with
    | interpolation => rfl
    | closed length | endOfInput => cases h

/-! ### Readers -/

theorem nests_ofLexeme {lexeme : Lexeme} {bytes : List Byte} (hplain : lexeme.Plain bytes)
    (hregion : region.holdsStatements) (h : ofLexeme lexeme t = .ok r) : r.Nests region := by
  cases lexeme with
  | bare kind length =>
    cases h
    exact .inside hplain.1 rfl
  | spelled kind length => exact nests_spelled hplain.1 h
  | quoted isVerbatim close opener =>
    cases isVerbatim with
    | true =>
      rw [ofLexeme, verbatim_eq] at h
      cases h
      exact nests_verbatim hregion t.pos close
    | false =>
      rw [ofLexeme, segment_eq] at h
      cases h
      exact nests_quoted hregion t.pos close
  | heredoc opener =>
    obtain ⟨identifier, -, h⟩ := exists_of_bind_eq_ok h
    obtain ⟨span, rfl⟩ := exists_of_spelled h
    exact ⟨.opensHeredoc hregion, fun hpart => by cases hpart⟩
  | malformed cause length shown =>
    cases shown with
    | true => exact nests_spelled rfl h
    | false =>
      cases h
      exact .inside rfl rfl

theorem nests_resumedString {close : Byte} (h : resumedString close t = .ok r) :
    r.Nests (.quoted close) := by
  obtain ⟨introducer, hintroducer, h⟩ := exists_of_bind_eq_ok h
  cases introducer with
  | some r' =>
    cases h
    exact nests_introducer? rfl hintroducer
  | none =>
    simp only [segment_eq] at h
    cases h
    exact nests_resumed t.pos close

theorem decodes_of_heredocStyle {heredoc : Heredoc} {style : Style}
    (h : heredocStyle heredoc t = .ok style) : style.decodes = !heredoc.verbatim := by
  obtain ⟨identifier, -, h⟩ := exists_of_bind_eq_ok h
  cases h
  cases hverbatim : heredoc.verbatim <;> rfl

theorem nests_bodySegment {heredoc : Heredoc} (h : bodySegment heredoc t = .ok r) :
    r.Nests (.heredocBody heredoc) := by
  obtain ⟨style, hstyle, -⟩ := exists_of_bind_eq_ok h
  rw [bodySegment_eq t hstyle] at h
  cases h
  exact nests_body (decodes_of_heredocStyle hstyle)

theorem nests_heredocBody {heredoc : Heredoc} (h : heredocBody heredoc t = .ok r) :
    r.Nests (.heredocBody heredoc) := by
  rw [heredocBody] at h
  split at h
  · exact nests_bodySegment h
  · rename_i hverbatim
    obtain ⟨introducer, hintroducer, h⟩ := exists_of_bind_eq_ok h
    cases introducer with
    | some r' =>
      cases h
      exact nests_introducer? (by simp [Region.interpolates, hverbatim]) hintroducer
    | none => exact nests_bodySegment h

/-! ### Tokens that are no lexemes -/

theorem isRewritten_text {style : Style} {lineStart : Bool} {ending : Stop → Ending}
    (hending : ∀ stop, (ending stop).kind.isRewritten) :
    (text pos style lineStart ending t).token.kind.isRewritten :=
  hending _

/-- A quoted literal is a token of text, whatever its delimiters are. -/
theorem isRewritten_ofLexeme_quoted {isVerbatim : Bool} {close : Byte} {opener : Nat}
    (h : ofLexeme (.quoted isVerbatim close opener) t = .ok r) : r.token.kind.isRewritten := by
  cases isVerbatim with
  | true =>
    rw [ofLexeme, verbatim_eq] at h
    cases h
    exact isRewritten_text fun stop => by cases stop <;> rfl
  | false =>
    rw [ofLexeme, segment_eq] at h
    cases h
    exact isRewritten_text fun stop => by cases stop <;> rfl

theorem needsNoLexeme_of_isRewritten (h : r.token.kind.isRewritten) :
    r.token.kind.needsNoLexeme := by
  simp [Kind.needsNoLexeme, h]

theorem needsNoLexeme_introducer? (h : introducer? t = .ok (some r)) :
    r.token.kind.needsNoLexeme := by
  rcases (token_introducer? h).1 with hkind | hkind <;> simp [Kind.needsNoLexeme, hkind]

theorem needsNoLexeme_resumedString {close : Byte} (h : resumedString close t = .ok r) :
    r.token.kind.needsNoLexeme := by
  obtain ⟨introducer, hintroducer, h⟩ := exists_of_bind_eq_ok h
  cases introducer with
  | some r' =>
    cases h
    exact needsNoLexeme_introducer? hintroducer
  | none =>
    simp only [segment_eq] at h
    cases h
    exact needsNoLexeme_of_isRewritten (isRewritten_text fun stop => by cases stop <;> rfl)

theorem needsNoLexeme_bodySegment {heredoc : Heredoc} (h : bodySegment heredoc t = .ok r) :
    r.token.kind.needsNoLexeme := by
  obtain ⟨style, hstyle, -⟩ := exists_of_bind_eq_ok h
  rw [bodySegment_eq t hstyle] at h
  cases h
  exact needsNoLexeme_of_isRewritten (isRewritten_text fun stop => by cases stop <;> rfl)

theorem needsNoLexeme_heredocBody {heredoc : Heredoc} (h : heredocBody heredoc t = .ok r) :
    r.token.kind.needsNoLexeme := by
  rw [heredocBody] at h
  split at h
  · exact needsNoLexeme_bodySegment h
  · obtain ⟨introducer, hintroducer, h⟩ := exists_of_bind_eq_ok h
    cases introducer with
    | some r' =>
      cases h
      exact needsNoLexeme_introducer? hintroducer
    | none => exact needsNoLexeme_bodySegment h

end Reading

namespace Lexer

variable {f : Frame} {b : Byte} {rest : List Byte} {t : Tape} {r : Reading} {l l' : Lexer}
  {token : Token}

/-- **Every reading does to the constructs what its kind and its region say.** -/
theorem nests_read (h : read f b rest t = .ok r) : r.Nests f.region := by
  have hstatement : ∀ {lookback region}, region.holdsStatements →
      Reading.statement lookback b rest t = .ok r → r.Nests region :=
    fun hregion h => Reading.nests_ofLexeme (Lexeme.plain_read ..) hregion h
  obtain ⟨region, lookback⟩ := f
  cases region with
  | statements => exact hstatement rfl h
  | quoted close => exact Reading.nests_resumedString h
  | interpolation braces =>
    simp only [read] at h
    split at h
    · rename_i hclose
      obtain ⟨rfl, -⟩ := hclose
      cases h
      exact ⟨.closesInterpolation, fun hpart => by cases hpart⟩
    · exact hstatement rfl h
  | heredocLine heredoc =>
    simp only [read] at h
    split at h
    · cases h
      exact ⟨.beginsBody, fun hpart => by cases hpart⟩
    · exact hstatement rfl h
  | heredocBody heredoc => exact Reading.nests_heredocBody h

/-- **What is no token of text, no introducer and no end of a region is read as a lexeme,** and a
brace that ends an interpolation is the end of a region. -/
theorem statement_of_read (h : read f b rest t = .ok r)
    (hkind : r.token.kind.needsNoLexeme = false) :
    f.region.holdsStatements ∧ (f.region = .interpolation 0 → b ≠ Byte.ofChar '\x7d')
      ∧ Reading.statement f.lookback b rest t = .ok r := by
  obtain ⟨region, lookback⟩ := f
  cases region with
  | statements => exact ⟨rfl, (fun hregion => by cases hregion), h⟩
  | quoted close =>
    rw [Reading.needsNoLexeme_resumedString h] at hkind
    cases hkind
  | interpolation braces =>
    simp only [read] at h
    split at h
    · cases h
      cases hkind
    · rename_i hopen
      refine ⟨rfl, fun hregion hb => hopen ⟨?_, hb⟩, h⟩
      cases hregion
      rfl
  | heredocLine heredoc =>
    simp only [read] at h
    split at h
    · cases h
      cases hkind
    · exact ⟨rfl, (fun hregion => by cases hregion), h⟩
  | heredocBody heredoc =>
    rw [Reading.needsNoLexeme_heredocBody h] at hkind
    cases hkind

/-- Settling changes the lookback of the stack only, and of a stack that holds statements only. -/
theorem exists_settle_stack (l : Lexer) :
    ∃ lookback, l.settle.stack = l.stack.withLookback lookback := by
  rw [settle]
  split
  · exact ⟨_, rfl⟩
  · exact ⟨l.stack.top.lookback, rfl⟩

theorem finish_stack (l : Lexer) : l.finish.2.stack = l.stack := by
  rw [finish]
  split <;> rfl

/-- **A call ends the script, or commits a reading.** -/
theorem next_cases (h : l.next = .ok (token, l')) :
    (l.settle.tape.rest = [] ∧ token = l.settle.finish.1 ∧ l' = l.settle.finish.2)
      ∨ ∃ b rest r, l.settle.tape.rest = b :: rest
        ∧ read l.settle.stack.top b rest l.settle.tape = .ok r
        ∧ token = r.token ∧ l' = ⟨r.tape, l.settle.stack.commit r.shift r.token.kind⟩ := by
  rw [next, step] at h
  split at h
  · rename_i hrest
    cases h
    exact .inl ⟨hrest, rfl, rfl⟩
  · rename_i b rest hrest
    obtain ⟨r, hr, h⟩ := exists_of_bind_eq_ok h
    cases h
    exact .inr ⟨b, rest, r, hrest, hr, rfl, rfl⟩

end Lexer

end ScriptLexer
