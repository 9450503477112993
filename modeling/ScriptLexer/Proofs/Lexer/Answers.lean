import ScriptLexer.Proofs.Lexer.Outlook
import ScriptLexer.Proofs.Lexer.Report

/-!
# What a call answers

The lexer does what its outlook says. Each reader is taken in turn: the token that it gives is the
one of the outcome, with the same text, the same effect on the constructs and the same report. So is
everything in front of a token, and the end of the script. What holds the two together is that an
open heredoc is named by bytes of the script (`Region.Identified`), so how its body is read does not
depend on the buffer.

## Main definitions

* `Reading.Matches` — a reading is what an outcome says
* `Lexer.Answers` — a call finds what lies ahead

## Main results

* `Lexer.matches_read` — a reading is what begins with its first byte
* `Lexer.Sound.answers` — a call does to the lexer what `Outlook.next` does to its outlook
-/

namespace ScriptLexer

/-! ### Frames and layers -/

variable {source bytes : List Byte} {t : Tape} {r : Reading}

theorem Region.holdsStatements_scene (source : List Byte) (region : Region) :
    (region.scene source).holdsStatements = region.holdsStatements := by
  cases region <;> rfl

theorem Frame.layer_record (source : List Byte) (kind : Kind) (f : Frame) :
    (f.record kind).layer source = (f.layer source).record kind := by
  obtain ⟨region, lookback⟩ := f
  refine congrArg (Layer.mk · _) ?_
  cases region with
  | interpolation braces =>
    cases kind with
    | punctuator p => cases p <;> rfl
    | _ => rfl
  | statements | quoted _ | heredocLine _ | heredocBody _ => rfl

/-- The style of a heredoc whose identifier has been named. -/
theorem Reading.heredocStyle_eq {heredoc : Heredoc}
    (h : (Region.heredocBody heredoc).Identified source t.buffer) :
    heredocStyle heredoc t = .ok (heredoc.style source) := by
  obtain ⟨identifier, hsource, hbuffer, -⟩ := h
  rw [heredocStyle, Tape.slice_eq_ok_iff.mpr hbuffer, Heredoc.style, hsource]
  rfl

/-! ### Readings and outcomes -/

namespace Reading

/-- A reading that began with `t` is what the outcome `o` says. -/
structure Matches (source : List Byte) (o : Outcome) (t : Tape) (r : Reading) : Prop where
  begins : r.token.pos = t.pos
  kind : r.token.kind = o.kind
  ends : r.tape.pos = t.pos + o.length
  turn : r.shift.turn source = o.turn
  literal : r.token.literal.bind (·.slice? r.tape.buffer) = o.literal
  diagnostic : r.tape.diagnostic = t.diagnostic.or (o.fault.map (·.shift t.pos))

theorem matches_bare {kind : Kind} {length : Nat} (h : length ≤ t.rest.length) :
    (bare t.pos kind (t.advanceBy length)).Matches source ⟨kind, length, none, .stay, none⟩ t where
  begins := rfl
  kind := rfl
  ends := by rw [bare, Tape.pos_advanceBy, Nat.min_eq_left h]
  turn := rfl
  literal := rfl
  diagnostic := (Option.or_none).symm

/-- A token whose literal is its own text, from `skip` bytes behind its beginning on. -/
theorem matches_spelled (source : List Byte) {kind : Kind} {shift : Shift} {skip length : Nat}
    {fault : Option Malformation} (h : skip + length ≤ t.rest.length)
    (hr : spelled t.pos (t.pos + skip) kind shift
      ((t.keep (fault.map (⟨t.pos, ·⟩))).advanceBy (skip + length)) = .ok r) :
    r.Matches source ⟨kind, skip + length, some ((t.rest.drop skip).take length),
      shift.turn source, fault.map (⟨0, ·⟩)⟩ t := by
  have hpos : ((t.keep (fault.map (⟨t.pos, ·⟩))).advanceBy (skip + length)).pos
      = t.pos + skip + length := by
    rw [Tape.pos_advanceBy, Tape.rest_keep, Tape.pos_keep, Nat.min_eq_left h, Nat.add_assoc]
  obtain ⟨span, hspan, hr⟩ := exists_of_bind_eq_ok hr
  rw [hpos, Span.between, if_pos (Nat.le_add_right _ _)] at hspan
  cases hspan
  cases hr
  constructor
  · rfl
  · rfl
  · rw [withLiteral, hpos, Nat.add_assoc]
  · rfl
  · simp only [withLiteral, Token.withLiteral, Option.bind_some, Tape.buffer_advanceBy,
      Tape.buffer_keep]
    exact Tape.slice?_ahead h
  · cases fault <;> rfl

/-- A token whose literal is its whole text. -/
theorem matches_whole (source : List Byte) {kind : Kind} {shift : Shift} {length : Nat}
    (fault : Option Malformation) (h : length ≤ t.rest.length)
    (hr : spelled t.pos t.pos kind shift
      ((t.keep (fault.map (⟨t.pos, ·⟩))).advanceBy length) = .ok r) :
    r.Matches source ⟨kind, length, some (t.rest.take length), shift.turn source,
      fault.map (⟨0, ·⟩)⟩ t := by
  rw [← Nat.zero_add length] at h hr
  have hmatches := matches_spelled source h hr
  rwa [Nat.zero_add] at hmatches

/-- A segment of text behind an opener. -/
theorem matches_text (source : List Byte) (style : Style) (lineStart : Bool)
    (ending : Stop → Ending) {opener : Nat} (hopener : opener ≤ t.rest.length)
    (hturn : ∀ stop, (ending stop).shift.turn source = (ending stop).shift.turn []) :
    (text t.pos style lineStart ending (t.advanceBy opener)).Matches source
      (.text style lineStart ending opener t.rest) t := by
  have hpos : (t.advanceBy opener).pos = t.pos + opener := by
    rw [Tape.pos_advanceBy, Nat.min_eq_left hopener]
  constructor
  · rfl
  · rfl
  · rw [pos_text, hpos, Nat.add_assoc]
    rfl
  · exact hturn _
  · exact slice?_text t.pos (t.advanceBy opener) style lineStart ending
  · rw [diagnostic_text, hpos]
    have hshift : ∀ fault : Option Diagnostic,
        (fault.map (·.shift opener)).map (·.shift t.pos) = fault.map (·.shift (t.pos + opener)) := by
      intro fault
      cases fault with
      | none => rfl
      | some d => exact congrArg some (d.shift_shift t.pos opener)
    simp only [Outcome.text]
    rw [Option.map_or, hshift, Option.or_assoc, Option.map_map]
    rfl

/-- An introducer is read where an outcome has one, and is what it says. -/
theorem matches_introducer? (source : List Byte) {introducer : Option Reading}
    (h : introducer? t = .ok introducer) :
    (introducer = none ∧ Outcome.introducer? t.rest = none)
      ∨ ∃ r o, introducer = some r ∧ Outcome.introducer? t.rest = some o ∧ r.Matches source o t := by
  rw [introducer?] at h
  rw [Outcome.introducer?]
  cases hread : Introducer.read? t.rest with
  | none =>
    rw [hread] at h
    cases h
    exact .inl ⟨rfl, rfl⟩
  | some i =>
    have hwithin := Introducer.within_read? hread
    cases i with
    | statements =>
      simp only [hread] at h
      cases h
      refine .inr ⟨_, _, rfl, rfl, ?_⟩
      constructor
      · rfl
      · rfl
      · rw [Tape.pos_advanceBy, Nat.min_eq_left hwithin]
      · rfl
      · rfl
      · exact (Option.or_none).symm
    | variableName kind length =>
      simp only [hread] at h
      obtain ⟨r, hr, hsome⟩ := exists_of_bind_eq_ok (f := fun r => .ok (some r)) h
      cases hsome
      refine .inr ⟨r, _, rfl, rfl, ?_⟩
      have hspelled : spelled t.pos (t.pos + 1) kind .stay
          ((t.keep (Option.map (⟨t.pos, ·⟩) none)).advanceBy (1 + length)) = .ok r := by
        simpa using hr
      exact matches_spelled source hwithin.2.2 hspelled

theorem matches_resumedString (source : List Byte) {close : Byte} (h : resumedString close t = .ok r) :
    r.Matches source ((Outcome.introducer? t.rest).getD
      (.text (.decoded close) false (.quoted close true) 0 t.rest)) t := by
  obtain ⟨introducer, hintroducer, h⟩ := exists_of_bind_eq_ok h
  rcases matches_introducer? source hintroducer with ⟨rfl, hnone⟩ | ⟨r', o, rfl, ho, hmatches⟩
  · simp only [segment_eq] at h
    cases h
    rw [hnone]
    have htext := matches_text source (.decoded close) false (.quoted close true)
      (Nat.zero_le t.rest.length) fun stop => by cases stop <;> rfl
    rwa [Tape.advanceBy_zero] at htext
  · cases h
    rw [ho]
    exact hmatches

theorem matches_bodySegment {heredoc : Heredoc}
    (hidentified : (Region.heredocBody heredoc).Identified source t.buffer)
    (h : bodySegment heredoc t = .ok r) :
    r.Matches source
      (.text (heredoc.style source) (t.isLineStart t.pos) .body 0 t.rest) t := by
  rw [bodySegment_eq t (heredocStyle_eq hidentified)] at h
  cases h
  have htext := matches_text source (heredoc.style source) (t.isLineStart t.pos) .body
    (Nat.zero_le t.rest.length) fun stop => by cases stop <;> rfl
  rwa [Tape.advanceBy_zero] at htext

theorem decodes_style (source : List Byte) (heredoc : Heredoc) :
    (heredoc.style source).decodes = !heredoc.verbatim := by
  rw [Heredoc.style, TerminatorLine.style]
  cases heredoc.verbatim <;> rfl

theorem matches_heredocBody {heredoc : Heredoc}
    (hidentified : (Region.heredocBody heredoc).Identified source t.buffer)
    (h : heredocBody heredoc t = .ok r) :
    let segment := Outcome.text (heredoc.style source) (t.isLineStart t.pos) .body 0 t.rest
    r.Matches source (if (heredoc.style source).decodes
      then (Outcome.introducer? t.rest).getD segment else segment) t := by
  intro segment
  rw [heredocBody] at h
  rw [decodes_style]
  split at h
  · rename_i hverbatim
    rw [hverbatim]
    exact matches_bodySegment hidentified h
  · rename_i hdecoded
    obtain ⟨introducer, hintroducer, h⟩ := exists_of_bind_eq_ok h
    rw [eq_false_of_ne_true hdecoded]
    rcases matches_introducer? source hintroducer with ⟨rfl, hnone⟩ | ⟨r', o, rfl, ho, hmatches⟩
    · rw [hnone]
      exact matches_bodySegment hidentified h
    · cases h
      rw [ho]
      exact hmatches

/-- The heredoc that an opener names waits for what the opener says. -/
theorem style_of_opener {opener : HeredocOpener} (ht : t.Reads source)
    (hle : 2 + opener.offset + opener.size ≤ t.rest.length) :
    let start := t.pos + 2 + opener.offset
    Heredoc.style source ⟨⟨start, start + opener.size⟩, opener.indented, opener.verbatim⟩
      = opener.style t.rest := by
  intro start
  have hslice : Span.slice? ⟨start, start + opener.size⟩ source
      = some ((t.rest.drop (2 + opener.offset)).take opener.size) := by
    rw [← Tape.slice?_ahead hle, ← Nat.add_assoc]
    refine Span.slice?_congr ht.length_buffer.symm fun i hi _ => ?_
    refine (ht.buffer_eq (Nat.le_trans ?_ hi)).symm
    show t.pos ≤ t.pos + 2 + opener.offset
    omega
  rw [Heredoc.style, HeredocOpener.style, hslice]
  rfl

theorem matches_ofLexeme {lexeme : Lexeme} (ht : t.Reads source)
    (hfits : lexeme.Fits t.rest.length) (h : ofLexeme lexeme t = .ok r) :
    r.Matches source (.ofLexeme t.rest lexeme) t := by
  cases lexeme with
  | bare kind length =>
    cases h
    exact matches_bare hfits.2.2
  | spelled kind length =>
    rw [ofLexeme, ← Tape.keep_none t] at h
    exact matches_whole source none hfits.2.2 h
  | quoted isVerbatim close opener =>
    cases isVerbatim with
    | true =>
      rw [ofLexeme, verbatim_eq] at h
      cases h
      exact matches_text source _ _ _ hfits.2 fun stop => by cases stop <;> rfl
    | false =>
      rw [ofLexeme, segment_eq] at h
      cases h
      exact matches_text source _ _ _ hfits.2 fun stop => by cases stop <;> rfl
  | heredoc opener =>
    obtain ⟨hsize, hinside, hle⟩ := hfits
    obtain ⟨span, hspan, h⟩ := exists_of_bind_eq_ok h
    rw [Span.between, if_pos (Nat.le_add_right _ _)] at hspan
    cases hspan
    have hmatches := matches_whole source none hle (by rwa [Option.map_none, Tape.keep_none])
    rw [Shift.turn, Region.scene] at hmatches
    rwa [style_of_opener ht (by omega)] at hmatches
  | malformed cause length shown =>
    cases shown with
    | true =>
      rw [ofLexeme, Tape.noteAt_eq_keep] at h
      exact matches_whole source (some cause) hfits.2 h
    | false =>
      cases h
      constructor
      · rfl
      · rfl
      · rw [bare, Tape.pos_advanceBy, Tape.rest_noteAt, Tape.pos_noteAt, Nat.min_eq_left hfits.2]
        rfl
      · rfl
      · rfl
      · rw [Tape.noteAt_eq_keep]
        rfl

end Reading

/-- **A reading is what begins with its first byte,** in the construct of its frame. -/
theorem Lexer.matches_read {f : Frame} {b : Byte} {rest : List Byte} (ht : t.Reads source)
    (hrest : t.rest = b :: rest) (hidentified : f.region.Identified source t.buffer)
    (h : read f b rest t = .ok r) :
    r.Matches source ((f.layer source).read (t.isLineStart t.pos) b rest) t := by
  have hstatement : ∀ {lookback}, Reading.statement lookback b rest t = .ok r →
      r.Matches source (.ofLexeme (b :: rest)
        (Lexeme.read lookback (t.isLineStart t.pos) b rest)) t := by
    intro lookback h
    rw [← hrest]
    refine Reading.matches_ofLexeme ht ?_ h
    rw [hrest]
    exact Lexeme.fits_read lookback rest _ b
  have hone : t.advance = t.advanceBy 1 := Tape.advance_eq_advanceBy t
  have hle : 1 ≤ t.rest.length := by
    rw [hrest]
    exact Nat.le_add_left 1 _
  have hpos : t.advance.pos = t.pos + 1 := by rw [hone, Tape.pos_advanceBy, Nat.min_eq_left hle]
  obtain ⟨region, lookback⟩ := f
  cases region with
  | statements => exact hstatement h
  | quoted close =>
    have hmatches := Reading.matches_resumedString source h
    rwa [hrest] at hmatches
  | interpolation braces =>
    simp only [Lexer.read] at h
    simp only [Frame.layer, Region.scene, Layer.read]
    split at h
    · rename_i hclose
      cases h
      rw [if_pos hclose]
      exact ⟨rfl, rfl, hpos, rfl, rfl, hone ▸ (Option.or_none).symm⟩
    · rename_i hopen
      rw [if_neg hopen]
      exact hstatement h
  | heredocLine heredoc =>
    simp only [Lexer.read] at h
    simp only [Frame.layer, Region.scene, Layer.read]
    split at h
    · rename_i hclose
      cases h
      rw [if_pos hclose]
      exact ⟨rfl, rfl, hpos, rfl, rfl, hone ▸ (Option.or_none).symm⟩
    · rename_i hopen
      rw [if_neg hopen]
      exact hstatement h
  | heredocBody heredoc =>
    have hmatches := Reading.matches_heredocBody hidentified h
    rwa [hrest] at hmatches

/-! ### Lexers and outlooks -/

theorem Line.startsBehind_append_eq (before bytes : List Byte) :
    startsBehind (before ++ bytes) = startsAfter (startsBehind before) bytes := by
  rw [startsBehind, List.getLast?_append, startsAfter]
  cases bytes.getLast? <;> rfl

namespace Lexer

variable {l l' : Lexer} {token : Token} {s : Stack} {t' : Tape}

/-- A move onward has the outlook behind the bytes that it reads. -/
theorem outlook_onward {n : Nat} {span : Span} (h : Tape.Onward n span t t') (s : Stack) :
    outlook source ⟨t', s⟩ = (outlook source ⟨t, s⟩).advanceBy n := by
  have hlines : t'.isLineStart t'.pos = Line.startsAfter (t.isLineStart t.pos) (t.rest.take n) := by
    rw [Tape.isLineStart_pos, Tape.isLineStart_pos, ← Line.startsBehind_append_eq,
      Line.startsBehind, h.last]
    rfl
  show Outlook.mk t'.rest (t'.isLineStart t'.pos) _ _ = _
  rw [hlines, h.rest]
  rfl

theorem outlook_commit (t : Tape) (s : Stack) (shift : Shift) (kind : Kind) :
    outlook source ⟨t, s.commit shift kind⟩
      = (outlook source ⟨t, s⟩).commit (shift.turn source) kind := by
  obtain ⟨top, below⟩ := s
  cases shift with
  | stay => simp only [outlook, Stack.commit, Shift.turn, Outlook.commit, Frame.layer_record]
  | push region =>
    simp only [outlook, Stack.commit, Shift.turn, Outlook.commit, List.map_cons,
      Frame.layer_record]
    rfl
  | pop =>
    cases below with
    | nil => simp only [outlook, Stack.commit, Shift.turn, Outlook.commit, List.map_nil,
        Frame.layer_record]
    | cons f below => simp only [outlook, Stack.commit, Shift.turn, Outlook.commit, List.map_cons,
        Frame.layer_record]
  | swap region =>
    simp only [outlook, Stack.commit, Shift.turn, Outlook.commit, Frame.layer_record]
    rfl

theorem outlook_skipLayout (source : List Byte) (s : Stack) (lookback : Lookback) (t : Tape) :
    outlook source ⟨(t.skipLayout lookback).1, s.withLookback (t.skipLayout lookback).2⟩
      = (outlook source ⟨t, s.withLookback lookback⟩).skipLayout := by
  induction lookback, t using Tape.skipLayout.induct with
  | case1 lookback t hnone => rw [Tape.skipLayout_of_none hnone, Outlook.skipLayout_of_none hnone]
  | case2 lookback t g hg ih =>
    rw [Tape.skipLayout_of_some hg, Outlook.skipLayout_of_some hg, ih]
    refine congrArg Outlook.skipLayout ?_
    rw [outlook_onward (Tape.onward_advanceBy ⟨0, 0⟩ (Gap.length_le_of_read? hg))]
    rfl

theorem outlook_honourEndMarker (t : Tape) (s : Stack) :
    outlook source ⟨t.honourEndMarker, s⟩ = (outlook source ⟨t, s⟩).honourEndMarker := by
  rw [Tape.honourEndMarker, Outlook.honourEndMarker]
  show _ = if t.isLineStart t.pos && Line.isEndMarker t.rest then _ else _
  split
  · rw [Tape.terminateAt_pos]
    show Outlook.mk [] (Tape.isLineStart (Tape.pos _) _) _ _
      = Outlook.mk [] (t.isLineStart t.pos) _ _
    rw [Tape.isLineStart_pos, Tape.isLineStart_pos]
    rfl
  · rfl

/-- **Settling comes to the outlook where the next token begins.** -/
theorem outlook_settle (source : List Byte) (l : Lexer) :
    l.settle.outlook source = (l.outlook source).settle := by
  have hholds : (l.outlook source).top.scene.holdsStatements
      = l.stack.top.region.holdsStatements := Region.holdsStatements_scene source _
  rw [Outlook.settle, hholds]
  by_cases hregion : l.stack.top.region.holdsStatements
  · rw [if_pos hregion, settle_of_holdsStatements hregion, outlook_honourEndMarker,
      outlook_skipLayout]
    rfl
  · rw [if_neg hregion, settle, if_neg hregion]

/-- What is skipped in front of a token is counted by the outlook. -/
theorem Reads.pos_settle (h : l.Reads source) :
    l.settle.pos = l.pos + (l.outlook source).gap := by
  have hholds : (l.outlook source).top.scene.holdsStatements
      = l.stack.top.region.holdsStatements := Region.holdsStatements_scene source _
  rw [Outlook.gap, hholds]
  by_cases hregion : l.stack.top.region.holdsStatements
  · obtain ⟨n, hmove, -⟩ := Tape.exists_skipLayout l.stack.top.lookback l.tape
    have hskipped := outlook_skipLayout source l.stack l.stack.top.lookback l.tape
    have hrest := congrArg (fun o => o.rest.length) hskipped
    have hmarked := (h.tape.onward (hmove ⟨0, 0⟩)).atEndMarker.2.1
    have hle := (hmove ⟨0, 0⟩).le
    simp only [outlook, (hmove ⟨0, 0⟩).rest, List.length_drop] at hrest
    rw [if_pos hregion, settle_of_holdsStatements hregion]
    show (l.tape.skipLayout l.stack.top.lookback).1.honourEndMarker.pos = _
    rw [hmarked, (hmove ⟨0, 0⟩).pos]
    show l.tape.pos + n = l.tape.pos + (l.tape.rest.length - (outlook source l).skipLayout.rest.length)
    have hsame : (outlook source l).skipLayout.rest.length = l.tape.rest.length - n := hrest.symm
    rw [hsame]
    omega
  · rw [if_neg hregion, Lexer.settle, if_neg hregion]
    rfl

theorem missing_outlook (source : List Byte) (l : Lexer) :
    (l.outlook source).missing = missing l.stack := by
  obtain ⟨t, ⟨region, lookback⟩, below⟩ := l
  cases region <;> simp [Outlook.missing, missing, outlook, Frame.layer, Region.scene, Stack.depth]

/-- What is missing at the end is kept there. -/
theorem finish_eq (source : List Byte) (l : Lexer) :
    l.finish = (.bare l.pos .endOfInput,
      ⟨l.tape.keep ((l.outlook source).finish.fault.map (·.shift l.pos)), l.stack⟩) := by
  have hmissing := missing_outlook source l
  obtain ⟨t, top, below⟩ := l
  rw [finish, Outlook.finish, hmissing]
  cases below with
  | nil =>
    rw [if_neg (by simp [depth, Stack.depth])]
    exact congrArg (fun t => (_, Lexer.mk t _)) (Tape.keep_none t).symm
  | cons f below =>
    rw [if_pos (by simp [depth, Stack.depth]), Tape.noteAt_eq_keep]
    rfl

/-- What a call does that leaves `l'` behind: it finds what lies ahead of `l`. -/
structure Answers (source : List Byte) (l : Lexer) (token : Token) (l' : Lexer) : Prop where
  begins : token.pos = l.pos + (l.outlook source).gap
  kind : token.kind = (l.outlook source).next.1.kind
  ends : l'.pos = token.pos + (l.outlook source).next.1.length
  fits : (l.outlook source).next.1.length ≤ (l.outlook source).settle.rest.length
  literal : token.literal.bind (·.slice? l'.tape.buffer) = (l.outlook source).next.1.literal
  diagnostic : l'.diagnostic
    = l.diagnostic.or ((l.outlook source).next.1.fault.map (·.shift token.pos))
  outlook : l'.outlook source = (l.outlook source).next.2

/-- **A call does to the lexer what `Outlook.next` does to its outlook.** -/
theorem Sound.answers (h : Sound source l) (hnext : l.next = .ok (token, l')) :
    Answers source l token l' := by
  have hpos := h.reads.pos_settle
  have hdiagnostic := diagnostic_settle l
  have hoverall : (l.outlook source).next = (l.settle.outlook source).step := by
    rw [outlook_settle, Outlook.next]
  rcases next_cases hnext with ⟨hrest, rfl, rfl⟩ | ⟨b, rest, r, hrest, hr, rfl, rfl⟩
  · rw [Outlook.step_of_nil hrest] at hoverall
    rw [finish_eq source]
    constructor
    · exact hpos
    · rw [hoverall]
      rfl
    · rw [hoverall]
      rfl
    · rw [hoverall]
      exact Nat.zero_le _
    · rw [hoverall]
      rfl
    · rw [hoverall, ← hdiagnostic]
      rfl
    · rw [hoverall]
      rfl
  · obtain ⟨r', n, hr', -, hlawful⟩ :=
      exists_read hrest (h.reads.settle.1.named _ List.mem_cons_self)
    rw [hr] at hr'
    cases hr'
    have hmatches := matches_read h.reads.settle.1.tape hrest
      (h.reads.identified_settle h.identified _ List.mem_cons_self) hr
    rw [Outlook.step_of_cons (o := l.settle.outlook source) hrest] at hoverall
    have hlength : n = ((l.settle.stack.top.layer source).read
        (l.settle.tape.isLineStart l.settle.tape.pos) b rest).length := by
      have hends := hmatches.ends
      rw [hlawful.onward.pos] at hends
      exact Nat.add_left_cancel hends
    have hbegins : r.token.pos = l.settle.pos := hmatches.begins
    constructor
    · rw [hbegins, hpos]
    · rw [hoverall]
      exact hmatches.kind
    · rw [hoverall, hbegins]
      exact hmatches.ends
    · rw [hoverall, ← outlook_settle]
      exact hlength ▸ hlawful.onward.le
    · rw [hoverall]
      exact hmatches.literal
    · rw [hoverall, hbegins, ← hdiagnostic]
      exact hmatches.diagnostic
    · rw [hoverall, outlook_commit, hmatches.turn, hmatches.kind,
        outlook_onward hlawful.onward, hlength]
      rfl

/-- **The bytes of a token are those that lie ahead** when the lexer has settled. -/
theorem Answers.text_eq (h : Answers source l token l') (hl : l.Reads source) :
    (source.drop token.pos).take (l'.pos - token.pos)
      = (l.outlook source).settle.rest.take (l.outlook source).next.1.length := by
  have hfits := h.fits
  rw [← outlook_settle] at hfits
  rw [h.ends, Nat.add_sub_cancel_left, h.begins, ← hl.pos_settle, ← outlook_settle]
  exact (hl.settle.1.tape.take_rest hfits).symm

end Lexer

end ScriptLexer
