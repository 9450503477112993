import ScriptLexer.Proofs.Lexer.Effect
import ScriptLexer.Proofs.Lexer.Literals

/-!
# What is reported, and where

A run keeps the first malformation that comes up. There are three places where one can: at the
backslash of an escape in a literal's text, at the start of a token that is illegal, and at the end
of the script. Each place has malformations of its own, so what is reported tells where it came up,
and the token that was read with it is of a kind that fits.

Of two malformations of one literal, a bad escape and a missing end, the escape comes first.

## Main definitions

* `Origin` — the places where a malformation comes up
* `Reading.Reports` — what a reading reports

## Main results

* `Lexer.reports_read` — every reading reports what it should
* `Lexer.first_report` — the first report stays, and is placed where the malformation came up
-/

namespace ScriptLexer

/-! ### Malformations by their place -/

namespace Malformation

/-- Whether a malformation is one of an escape. -/
def isOfEscape : Malformation → Bool
  | invalidEscape | invalidHexEscape => true
  | _ => false

/-- Whether a malformation is one of a token, which is illegal then. -/
def isOfToken : Malformation → Bool
  | unterminatedString | unterminatedHeredoc | unterminatedComment | strayBackslash => true
  | invalidHeredocIdentifier | invalidVariableName _ | unexpectedByte _ => true
  | unclosedContext _ | invalidEscape | invalidHexEscape => false

end Malformation

/-- Where a malformation comes up. -/
inductive Origin where
  /-- At an escape in the text of a literal. -/
  | escape
  /-- At a token that is illegal. -/
  | illegalToken
  /-- At the end of the script. -/
  | endOfScript
  deriving DecidableEq, Repr

/-- What a diagnostic says that came up with `token`, behind which the constructs of `s` are open.
At an escape it says that a backslash of the script stands there, in the text of a literal; at a
token, that an illegal token begins there; at the end, what is missing. -/
def Origin.Explains (source : List Byte) (token : Token) (s : Stack) (d : Diagnostic) :
    Origin → Prop
  | escape => d.cause.isOfEscape
      ∧ source[d.pos]? = some (Byte.ofChar '\\')
      ∧ token.kind ∈ [Kind.string, .stringPart, .heredocPart, .heredocEnd, .illegal]
  | illegalToken => d.cause.isOfToken ∧ token.kind = .illegal ∧ d.pos = token.pos
  | endOfScript => token.kind = .endOfInput ∧ d.pos = token.pos ∧ 1 < s.depth
      ∧ d.cause = match s.top.region with
        | .quoted _ => .unterminatedString
        | .heredocBody _ => .unterminatedHeredoc
        | .statements | .interpolation _ | .heredocLine _ => .unclosedContext (s.depth - 1)

/-- **What is reported tells where it came up.** -/
theorem Origin.Explains.unique {source : List Byte} {token : Token} {s : Stack} {d : Diagnostic}
    {o o' : Origin} (h : o.Explains source token s d) (h' : o'.Explains source token s d) :
    o = o' := by
  have hcause : d.cause.isOfEscape → ¬ d.cause.isOfToken := by
    cases d.cause <;> simp [Malformation.isOfEscape, Malformation.isOfToken]
  have hend : ∀ {k : Kind}, k = .endOfInput →
      k ∉ [Kind.string, .stringPart, .heredocPart, .heredocEnd, .illegal] := by
    rintro k rfl
    decide
  cases o with
  | escape =>
    cases o' with
    | escape => rfl
    | illegalToken => exact absurd h'.1 (hcause h.1)
    | endOfScript => exact absurd h.2.2 (hend h'.1)
  | illegalToken =>
    cases o' with
    | escape => exact absurd h.1 (hcause h'.1)
    | illegalToken => rfl
    | endOfScript => exact absurd (h.2.1.symm.trans h'.1) (by decide)
  | endOfScript =>
    cases o' with
    | escape => exact absurd h'.2.2 (hend h.1)
    | illegalToken => exact absurd (h'.2.1.symm.trans h.1) (by decide)
    | endOfScript => rfl

/-! ### Malformed escapes -/

theorem Escape.isOfEscape_of_read {rest : List Byte} {cause : Malformation}
    (h : (read rest).malformation = some cause) : cause.isOfEscape := by
  cases rest with
  | nil => cases h
  | cons b rest =>
    revert h
    refine read_cons_cases (motive := fun p => p.malformation = some cause → cause.isOfEscape)
      b rest ?_ ?_ ?_ ?_ ?_ ?_ ?_
    · intro v _ h
      cases h
    · intro _ h
      cases h
    · intro _ h
      cases h
    · intro _ h
      rw [hexadecimal.eq_def] at h
      repeat' split at h
      all_goals cases h
      all_goals rfl
    · intro _ h
      rw [longControl.eq_def] at h
      split at h
      · rw [controlled.eq_def] at h
        split at h <;> cases h
      · cases h
        rfl
    · intro _ h
      rw [controlled.eq_def] at h
      split at h <;> cases h
    · intro h
      cases h

namespace Style

variable {style : Style} {lineStart : Bool} {b : Byte} {rest : List Byte}

theorem isOfEscape_of_piece {cause : Malformation}
    (h : (style.piece b rest).malformation = some cause) : cause.isOfEscape := by
  revert h
  refine piece_cases (motive := fun p => p.malformation = some cause → cause.isOfEscape)
    style b rest ?_ ?_ ?_
  · intro h
    cases h
  · intro c tail _ h
    cases h
  · exact Escape.isOfEscape_of_read

/-- What is wrong in a passage is an escape in it. -/
theorem isOfEscape_of_fault {f : Diagnostic}
    (h : (style.passage lineStart rest).fault = some f) :
    f.cause.isOfEscape ∧ f.pos < (style.passage lineStart rest).length := by
  induction lineStart, rest using passage_induction style generalizing f with
  | stops hstop => cases h
  | ends hstop => cases h
  | @step lineStart b rest hstop ih =>
    simp only [Passage.behind, Piece.length] at h ⊢
    cases hm : (style.piece b rest).malformation with
    | some cause =>
      rw [hm] at h
      cases h
      exact ⟨isOfEscape_of_piece hm, by simp only; omega⟩
    | none =>
      rw [hm, Option.map_none, Option.none_or] at h
      obtain ⟨g, hg, rfl⟩ := Option.map_eq_some_iff.mp h
      obtain ⟨hcause, hlt⟩ := ih hg
      refine ⟨hcause, ?_⟩
      simp only [Diagnostic.shift]
      omega

end Style

/-! ### Lexemes -/

namespace Lexeme

/-- What a lexeme says of what is wrong: if it is malformed, what is wrong with its token; and
otherwise its kind is not that of an illegal token. -/
def Blames : Lexeme → Prop
  | bare kind _ | spelled kind _ => kind ≠ .illegal
  | malformed cause _ _ => cause.isOfToken
  | quoted .. | heredoc .. => True

variable (l : Lookback) (rest : List Byte)

theorem blames_number (length : Nat) : (spelled (Number.read rest).1 length).Blames := by
  intro h
  have hmem := Number.kind_read rest
  rw [h] at hmem
  exact absurd hmem (by decide)

theorem blames_punctuation (b : Byte) : (punctuation b rest).Blames := by
  rw [punctuation]
  split
  · exact Kind.noConfusion
  · rfl

theorem blames_signed (sign : Byte) : (signed l sign rest).Blames := by
  rw [signed]
  split
  · exact blames_number rest _
  · exact blames_punctuation rest sign

theorem blames_less : (less l rest).Blames := by
  rw [less.eq_def]
  split
  · split
    · exact blames_punctuation _ 0x3C
    split
    · trivial
    · rfl
    · exact blames_punctuation _ 0x3C
  · exact blames_punctuation rest 0x3C

theorem blames_percent : (percent l rest).Blames := by
  rw [percent]
  split
  · split
    · trivial
    · exact blames_punctuation rest 0x25
  · exact blames_punctuation rest 0x25

theorem blames_equals (lineStart : Bool) : (equals lineStart rest).Blames := by
  rw [equals]
  split
  · rfl
  · exact blames_punctuation rest 0x3D

theorem blames_variableName (sigil : Byte) : (variableName sigil rest).Blames := by
  rw [variableName]
  split
  · rename_i h
    rintro rfl
    cases Variable.isSigiled_of_read? h
  · rfl
  · exact blames_punctuation rest sigil

theorem blames_name : (name l rest).Blames := by
  have hshape := Name.kind_shape l.defining rest
  rw [name]
  split
  · exact Kind.noConfusion
  · rename_i kind length hkind hread
    simp only [Name.read] at hread
    split at hread <;> cases hread
    · exact (hkind _ rfl).elim
    · intro h
      rw [h] at hshape
      exact absurd hshape (by decide)

/-- **What is read at a byte blames its token,** if it is malformed. -/
theorem blames_read (lineStart : Bool) (b : Byte) : (read l lineStart b rest).Blames := by
  rw [read.eq_def]
  split
  · exact blames_name l (b :: rest)
  split
  · exact blames_number (b :: rest) _
  split
  · exact Kind.noConfusion
  · exact Kind.noConfusion
  · trivial
  · trivial
  · exact blames_variableName rest _
  · exact blames_variableName rest _
  · exact blames_percent l rest
  · exact blames_signed l rest _
  · exact blames_signed l rest _
  · exact blames_less l rest
  · exact blames_equals rest lineStart
  · rfl
  · exact blames_punctuation rest b

end Lexeme

/-! ### Readings -/

/-- Whether an ending reports what it should: it reports something if its token is illegal, and that
is a malformation of the token. -/
def Ending.Blames (e : Ending) : Prop :=
  (e.kind = .illegal ↔ e.fault.isSome) ∧ ∀ cause ∈ e.fault, cause.isOfToken

theorem Ending.blames_verbatim (stop : Stop) : (verbatim stop).Blames := by
  cases stop <;> simp [Blames, verbatim, Malformation.isOfToken]

theorem Ending.blames_quoted (close : Byte) (resumed : Bool) (stop : Stop) :
    (quoted close resumed stop).Blames := by
  cases stop <;> simp [Blames, quoted, Malformation.isOfToken]

theorem Ending.blames_body (stop : Stop) : (body stop).Blames := by
  cases stop <;> simp [Blames, body, Malformation.isOfToken]

namespace Reading

/-- What a reading of the bytes ahead of `t` reports. An illegal token never goes unreported. And a
report is one of an escape in the literal of the token, or one of an illegal token. -/
structure Reports (t : Tape) (r : Reading) : Prop where
  illegal : r.token.kind = .illegal → r.tape.diagnostic.isSome
  placed : t.diagnostic = none → ∀ d, r.tape.diagnostic = some d →
    (d.cause.isOfEscape ∧ r.token.kind.isRewritten ∧ t.pos ≤ d.pos ∧ d.pos < r.tape.pos
        ∧ t.buffer[d.pos]? = some (Byte.ofChar '\\'))
      ∨ (d.cause.isOfToken ∧ r.token.kind = .illegal ∧ d.pos = r.token.pos)

variable {t u : Tape} {r : Reading} {pos start : Nat} {kind : Kind} {shift : Shift}

/-- A reading of another kind than an illegal token may leave what is reported as it was. -/
theorem reports_quiet (hkind : r.token.kind ≠ .illegal)
    (htape : r.tape.diagnostic = t.diagnostic) : r.Reports t where
  illegal h := absurd h hkind
  placed hnone d hd := by
    rw [htape, hnone] at hd
    cases hd

theorem reports_spelled (hkind : kind ≠ .illegal) (htape : u.diagnostic = t.diagnostic)
    (h : spelled pos start kind shift u = .ok r) : r.Reports t := by
  obtain ⟨span, rfl⟩ := exists_of_spelled h
  exact reports_quiet hkind htape

theorem reports_introducer? (h : introducer? t = .ok (some r)) : r.Reports t := by
  rw [introducer?] at h
  split at h
  · cases h
  · cases h
    exact reports_quiet Kind.noConfusion rfl
  · rename_i hread
    obtain ⟨r', hr', hsome⟩ := exists_of_bind_eq_ok (f := fun r => .ok (some r)) h
    cases hsome
    refine reports_spelled (u := t.advanceBy _) ?_ rfl hr'
    rintro rfl
    cases Introducer.isSigiled_of_read? hread

/-- An illegal token is reported where it begins, unless something was reported before. -/
theorem reports_malformed {cause : Malformation} (hcause : cause.isOfToken)
    (hkind : r.token.kind = .illegal)
    (htape : r.tape.diagnostic = t.diagnostic.or (some ⟨r.token.pos, cause⟩)) : r.Reports t where
  illegal _ := by
    rw [htape]
    cases t.diagnostic <;> rfl
  placed hnone d hd := by
    rw [htape, hnone] at hd
    cases hd
    exact .inr ⟨hcause, hkind, rfl⟩

/-! ### Tokens of text -/

/-- A segment of text, for a token that began at `pos`, reports its first bad escape, or else what
its ending does. -/
theorem reports_text {style : Style} {lineStart : Bool} {ending : Stop → Ending}
    (hrewritten : ∀ stop, (ending stop).kind.isRewritten) (hblames : ∀ stop, (ending stop).Blames) :
    (text pos style lineStart ending t).Reports t := by
  have hfault := @Style.isOfEscape_of_fault style lineStart t.rest
  have hbackslash := @Style.passage_fault_at_backslash style lineStart t.rest
  have hlength := Style.length_passage_le style lineStart t.rest
  have hdiagnostic := diagnostic_text pos t style lineStart ending
  have hpos := pos_text pos t style lineStart ending
  have hkind : (text pos style lineStart ending t).token.kind
      = (ending (style.passage lineStart t.rest).stop).kind := rfl
  generalize style.passage lineStart t.rest = p at hfault hbackslash hlength hdiagnostic hpos hkind
  obtain ⟨hillegal, htoken⟩ := hblames p.stop
  constructor
  · intro h
    rw [hkind] at h
    rw [hdiagnostic, Option.isSome_or, Option.isSome_map, hillegal.mp h, Bool.or_true]
  · intro hnone d hd
    rw [hdiagnostic, hnone, Option.none_or] at hd
    cases hf : p.fault with
    | some f =>
      rw [hf] at hd
      cases hd
      obtain ⟨hcause, hlt⟩ := hfault hf
      refine .inl ⟨hcause, hkind ▸ hrewritten _, Nat.le_add_right _ _, ?_, ?_⟩
      · show t.pos + f.pos < _
        rw [hpos]
        omega
      · rw [← hbackslash hf]
        exact Tape.getElem?_buffer_ahead (by omega)
    | none =>
      rw [hf, Option.map_none, Option.none_or] at hd
      obtain ⟨cause, hcause, rfl⟩ := Option.map_eq_some_iff.mp hd
      exact .inr ⟨htoken cause hcause, hkind.trans (hillegal.mpr (by rw [hcause]; rfl)), rfl⟩

/-- What stands in front of a text leaves what is reported as it is. -/
theorem Reports.behind_opener {n : Nat} (h : r.Reports (t.advanceBy n)) : r.Reports t where
  illegal := h.illegal
  placed hnone d hd := by
    refine (h.placed hnone d hd).imp_left ?_
    rintro ⟨hcause, hkind, hle, hlt, hbyte⟩
    rw [Tape.pos_advanceBy] at hle
    rw [Tape.buffer_advanceBy] at hbyte
    exact ⟨hcause, hkind, by omega, hlt, hbyte⟩

theorem reports_verbatim (pos : Nat) (close : Byte) :
    (text pos (.verbatim close) false Ending.verbatim t).Reports t :=
  reports_text (fun stop => by cases stop <;> rfl) Ending.blames_verbatim

theorem reports_segment (pos : Nat) (close : Byte) (resumed : Bool) :
    (text pos (.decoded close) false (Ending.quoted close resumed) t).Reports t :=
  reports_text (fun stop => by cases stop <;> rfl) (Ending.blames_quoted close resumed)

theorem reports_bodySegment {heredoc : Heredoc} (h : bodySegment heredoc t = .ok r) :
    r.Reports t := by
  obtain ⟨style, hstyle, -⟩ := exists_of_bind_eq_ok h
  rw [bodySegment_eq t hstyle] at h
  cases h
  exact reports_text (fun stop => by cases stop <;> rfl) Ending.blames_body

/-! ### Readers -/

theorem reports_ofLexeme {lexeme : Lexeme} (hblames : lexeme.Blames)
    (h : ofLexeme lexeme t = .ok r) : r.Reports t := by
  cases lexeme with
  | bare kind length =>
    cases h
    exact reports_quiet hblames rfl
  | spelled kind length => exact reports_spelled (u := t.advanceBy length) hblames rfl h
  | quoted isVerbatim close opener =>
    cases isVerbatim with
    | true =>
      rw [ofLexeme, verbatim_eq] at h
      cases h
      exact (reports_verbatim t.pos close).behind_opener
    | false =>
      rw [ofLexeme, segment_eq] at h
      cases h
      exact (reports_segment t.pos close false).behind_opener
  | heredoc opener =>
    obtain ⟨identifier, -, h⟩ := exists_of_bind_eq_ok h
    exact reports_spelled (u := t.advanceBy _) Kind.noConfusion rfl h
  | malformed cause length shown =>
    have htape : ((t.noteAt t.pos cause).advanceBy length).diagnostic
        = t.diagnostic.or (some ⟨t.pos, cause⟩) := by
      rw [Tape.noteAt_eq_keep]
      rfl
    cases shown with
    | true =>
      obtain ⟨span, rfl⟩ := exists_of_spelled h
      exact reports_malformed hblames rfl htape
    | false =>
      cases h
      exact reports_malformed hblames rfl htape

theorem reports_resumedString {close : Byte} (h : resumedString close t = .ok r) :
    r.Reports t := by
  obtain ⟨introducer, hintroducer, h⟩ := exists_of_bind_eq_ok h
  cases introducer with
  | some r' =>
    cases h
    exact reports_introducer? hintroducer
  | none =>
    simp only [segment_eq] at h
    cases h
    exact reports_segment t.pos close true

theorem reports_heredocBody {heredoc : Heredoc} (h : heredocBody heredoc t = .ok r) :
    r.Reports t := by
  rw [heredocBody] at h
  split at h
  · exact reports_bodySegment h
  · obtain ⟨introducer, hintroducer, h⟩ := exists_of_bind_eq_ok h
    cases introducer with
    | some r' =>
      cases h
      exact reports_introducer? hintroducer
    | none => exact reports_bodySegment h

end Reading

namespace Lexer

variable {source : List Byte} {f : Frame} {b : Byte} {rest : List Byte} {t : Tape} {r : Reading}
  {l l' : Lexer} {token : Token}

/-- **Every reading reports what it should.** -/
theorem reports_read (h : read f b rest t = .ok r) : r.Reports t := by
  have hstatement : ∀ {lookback}, Reading.statement lookback b rest t = .ok r → r.Reports t :=
    fun h => Reading.reports_ofLexeme (Lexeme.blames_read ..) h
  obtain ⟨region, lookback⟩ := f
  cases region with
  | statements => exact hstatement h
  | quoted close => exact Reading.reports_resumedString h
  | interpolation braces =>
    simp only [read] at h
    split at h
    · cases h
      exact Reading.reports_quiet Kind.noConfusion (by rw [Tape.advance_eq_advanceBy]; rfl)
    · exact hstatement h
  | heredocLine heredoc =>
    simp only [read] at h
    split at h
    · cases h
      exact Reading.reports_quiet Kind.noConfusion (by rw [Tape.advance_eq_advanceBy]; rfl)
    · exact hstatement h
  | heredocBody heredoc => exact Reading.reports_heredocBody h

/-! ### Calls -/

/-- Coming to the next token reports nothing. -/
theorem diagnostic_settle (l : Lexer) : l.settle.diagnostic = l.diagnostic := by
  have hskip : ∀ lookback t, (Tape.skipLayout lookback t).1.diagnostic = t.diagnostic := by
    intro lookback t
    induction lookback, t using Tape.skipLayout.induct with
    | case1 lookback t hnone => rw [Tape.skipLayout_of_none hnone]
    | case2 lookback t g hg ih => rw [Tape.skipLayout_of_some hg, ih, Tape.advanceBy]
  have hmarker : ∀ t : Tape, t.honourEndMarker.diagnostic = t.diagnostic := by
    intro t
    rw [Tape.honourEndMarker]
    split <;> rfl
  rw [settle]
  split
  · exact (hmarker _).trans (hskip _ _)
  · rfl

/-- The end of the script reports what is missing there, and where. -/
theorem explains_finish (source : List Byte) {d : Diagnostic} (hnone : l.diagnostic = none)
    (hd : l.finish.2.diagnostic = some d) :
    l.finish.2.pos = l.pos ∧ d.pos = l.pos
      ∧ Origin.endOfScript.Explains source l.finish.1 l.finish.2.stack d := by
  rw [finish] at hd ⊢
  split at hd
  · rename_i hdepth
    rw [if_pos hdepth]
    rw [diagnostic, Tape.noteAt_eq_keep, Tape.keep, show l.tape.diagnostic = none from hnone,
      Option.none_or] at hd
    cases hd
    refine ⟨Tape.pos_noteAt _ _ _, rfl, rfl, rfl, hdepth, ?_⟩
    show missing l.stack = _
    rw [missing.eq_def]
    cases l.stack.top.region <;> rfl
  · rw [show l.diagnostic = none from hnone] at hd
    cases hd

/-- **A call that reports something says where it came up,** and one that answers with an illegal
token leaves something reported. -/
theorem Reads.report_next (h : l.Reads source) (hnext : l.next = .ok (token, l')) :
    (token.kind = .illegal → l'.diagnostic.isSome)
      ∧ (l.diagnostic = none → ∀ d, l'.diagnostic = some d →
        token.pos ≤ d.pos ∧ d.pos ≤ l'.pos
          ∧ ∃ origin : Origin, origin.Explains source token l'.stack d) := by
  have hsettled := h.settle.1
  rcases next_cases hnext with ⟨-, rfl, rfl⟩ | ⟨b, rest, r, hrest, hr, rfl, rfl⟩
  · refine ⟨(fun hkind => by cases hkind), fun hnone d hd => ?_⟩
    rw [← diagnostic_settle] at hnone
    obtain ⟨hpos, hplace, hexplains⟩ := explains_finish source hnone hd
    refine ⟨Nat.le_of_eq hplace.symm, ?_, .endOfScript, hexplains⟩
    rw [hpos, hplace]
  · obtain ⟨r', n, hr', hn, hlawful⟩ := exists_read hrest (hsettled.named _ List.mem_cons_self)
    rw [hr] at hr'
    cases hr'
    have hreports := reports_read hr
    have hread : r.tape.pos = l.settle.pos + n := hlawful.onward.pos
    refine ⟨hreports.illegal, fun hnone d hd => ?_⟩
    rw [← diagnostic_settle] at hnone
    rw [hlawful.begins]
    rcases hreports.placed hnone d hd with
      ⟨hcause, hkind, hle, hlt, hbyte⟩ | ⟨hcause, hkind, hplace⟩
    · refine ⟨hle, Nat.le_of_lt hlt, .escape, hcause, ?_, ?_⟩
      · rw [← hbyte]
        exact (hsettled.tape.buffer_eq hle).symm
      · exact (Kind.isRewritten_iff_mem _).mp hkind
    · rw [hlawful.begins] at hplace
      refine ⟨Nat.le_of_eq hplace.symm, ?_, .illegalToken, hcause, hkind, ?_⟩
      · show d.pos ≤ r.tape.pos
        rw [hplace, hread]
        exact Nat.le_add_right _ n
      · rw [hplace, hlawful.begins]

/-- **The first report stays, and is placed where the malformation came up.** Whatever the number of
calls before, the next one keeps what has been reported, and so do any more; if its token is
illegal, something is reported; and if it is the first to report anything, it does so between the
start of its token and the reading offset, at exactly one of the places where a malformation comes
up. -/
theorem first_report (source : List Byte) (n : Nat) :
    ∃ tokens l token l', calls next n (ofBytes source) = .ok (tokens, l)
      ∧ l.next = .ok (token, l')
      ∧ (∀ d, l.diagnostic = some d → ∀ m, ∃ later l'', calls next m l = .ok (later, l'')
        ∧ l''.diagnostic = some d)
      ∧ (token.kind = .illegal → l'.diagnostic.isSome)
      ∧ (l.diagnostic = none → ∀ d, l'.diagnostic = some d →
        token.pos ≤ d.pos ∧ d.pos ≤ l'.pos
          ∧ ∃! origin : Origin, origin.Explains source token l'.stack d) := by
  obtain ⟨tokens, l, hcalls, hl⟩ := exists_calls source n
  obtain ⟨token, l', hnext, -⟩ := exists_next hl
  obtain ⟨hillegal, hplaced⟩ := hl.report_next hnext
  refine ⟨tokens, l, token, l', hcalls, hnext, fun d hd m => ?_, hillegal, fun hnone d hd => ?_⟩
  · obtain ⟨later, l'', hlater, -, hkept⟩ := hl.calls_next
      (P := fun _ k => k.diagnostic = some d) hd (fun _ hk hmoves => hmoves.kept d hk) m
    exact ⟨later, l'', hlater, hkept⟩
  · obtain ⟨hbegin, hend, origin, horigin⟩ := hplaced hnone d hd
    exact ⟨hbegin, hend, origin, horigin, fun _ h => h.unique horigin⟩

end Lexer

end ScriptLexer
