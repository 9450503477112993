import ScriptLexer.Proofs.Lexer.Identifier
import ScriptLexer.Proofs.Tape.Within
import ScriptLexer.Proofs.Text.Append

/-!
# A lexer within a larger script

A lexer that reads a part of a larger script reads it as if the part were all there is. What lies in
front of the part moves offsets, and nothing else, if the part begins with a line. What lies behind
it is not seen, if the part ends with a line: no scanner looks past the end of a line, and what goes
on over many lines — a text, or a block comment — goes on behind the part only if it was cut off
there, which is reported.

So there are two cases in which a call answers within a larger script as it does alone. Either
nothing follows the part, or what is left of the part ends with a line, the call does not come to
the end of the part, and nothing has been reported behind it.

## Main definitions

* `Reading.within`, `Lexer.within` — a reading, or a lexer, of a part of a larger script
* `Uncut` — what is read ahead of a tape is not cut off by the end of the script

## Main results

* `Lexer.read_within` — what begins a token is read alike within a larger script
* `Lexer.Reads.next_within` — a call answers alike within a larger script
-/

namespace ScriptLexer

/-! ### Behind more bytes -/

/-- The heredoc as it lies behind `n` more bytes. -/
def Heredoc.rebase (n : Nat) (h : Heredoc) : Heredoc :=
  { h with identifier := h.identifier.rebase n }

/-- The region as it lies behind `n` more bytes. -/
def Region.rebase (n : Nat) : Region → Region
  | heredocLine heredoc => heredocLine (heredoc.rebase n)
  | heredocBody heredoc => heredocBody (heredoc.rebase n)
  | statements => statements
  | quoted close => quoted close
  | interpolation braces => interpolation braces

/-- What a token does to the constructs, behind `n` more bytes. -/
def Shift.rebase (n : Nat) : Shift → Shift
  | push region => push (region.rebase n)
  | swap region => swap (region.rebase n)
  | stay => stay
  | pop => pop

/-- The token as it is read behind `n` more bytes. -/
def Token.rebase (n : Nat) (token : Token) : Token :=
  ⟨n + token.pos, token.kind, token.literal.map (·.rebase n)⟩

/-- The frame as it is behind `n` more bytes. -/
def Frame.rebase (n : Nat) (f : Frame) : Frame :=
  { f with region := f.region.rebase n }

/-- The stack as it is behind `n` more bytes. -/
def Stack.rebase (n : Nat) (s : Stack) : Stack :=
  ⟨s.top.rebase n, s.below.map (·.rebase n)⟩

/-- The reading as it is in a larger script. -/
def Reading.within (front back : List Byte) (r : Reading) : Reading :=
  ⟨r.token.rebase front.length, r.shift.rebase front.length, r.tape.within front back⟩

/-- The lexer as it is in a larger script. -/
def Lexer.within (front back : List Byte) (l : Lexer) : Lexer :=
  ⟨l.tape.within front back, l.stack.rebase front.length⟩

theorem Region.holdsStatements_rebase (n : Nat) (region : Region) :
    (region.rebase n).holdsStatements = region.holdsStatements := by
  cases region <;> rfl

namespace Stack

variable (n : Nat)

theorem record_rebase (kind : Kind) (f : Frame) :
    (f.rebase n).record kind = (f.record kind).rebase n := by
  obtain ⟨region, lookback⟩ := f
  cases region with
  | interpolation braces =>
    simp only [Frame.record, Frame.rebase, Region.rebase, Frame.countBrace]
    split <;> rfl
  | statements | quoted _ | heredocLine _ | heredocBody _ => rfl

theorem commit_rebase (shift : Shift) (kind : Kind) (s : Stack) :
    (s.rebase n).commit (shift.rebase n) kind = (s.commit shift kind).rebase n := by
  obtain ⟨top, below⟩ := s
  cases shift with
  | stay => simp only [Shift.rebase, commit, rebase, record_rebase]
  | push region => simp only [Shift.rebase, commit, rebase, record_rebase, List.map_cons]; rfl
  | pop =>
    cases below with
    | nil => simp only [Shift.rebase, commit, rebase, record_rebase, List.map_nil]
    | cons f below => simp only [Shift.rebase, commit, rebase, record_rebase, List.map_cons]
  | swap region =>
    simp only [Shift.rebase, commit, rebase, ← record_rebase]
    rfl

end Stack

theorem Lexer.missing_rebase (n : Nat) (s : Stack) : missing (s.rebase n) = missing s := by
  obtain ⟨⟨region, lookback⟩, below⟩ := s
  cases region <;> simp [missing, Stack.rebase, Frame.rebase, Region.rebase, Stack.depth]

/-! ### Readings -/

/-- What is read ahead of `t` and left with the diagnostic `d` is not cut off by the end of the
script: nothing follows there, or the script ends with a line and there is nothing to report. -/
def Uncut (back : List Byte) (t : Tape) (d : Option Diagnostic) : Prop :=
  back = [] ∨ Line.startsBehind t.rest ∧ d = none

variable {front back : List Byte} {t : Tape} {d : Option Diagnostic} {r : Reading}

theorem Uncut.sameLine (h : Uncut back t d) (hne : t.rest ≠ []) :
    SameLine t.rest (t.rest ++ back) := by
  rcases h with rfl | ⟨hlines, -⟩
  · rw [List.append_nil]
    exact .refl _
  · exact .append hne hlines back

theorem Uncut.advanceBy (h : Uncut back t d) (n : Nat) : Uncut back (t.advanceBy n) d :=
  h.imp_right fun hends => ⟨Line.startsBehind_drop hends.1 n, hends.2⟩

namespace Reading

theorem bare_within (pos : Nat) (kind : Kind) :
    bare (front.length + pos) kind (t.within front back) = (bare pos kind t).within front back :=
  rfl

theorem spelled_within {pos start : Nat} {kind : Kind} {shift : Shift}
    (h : spelled pos start kind shift t = .ok r) :
    spelled (front.length + pos) (front.length + start) kind (shift.rebase front.length)
      (t.within front back) = .ok (r.within front back) := by
  obtain ⟨span, hspan, hr⟩ := exists_of_bind_eq_ok h
  cases hr
  rw [spelled, Tape.pos_within, Span.between_rebase, hspan]
  rfl

/-- A passage whose end is reported where the script ends is the same within a larger script. -/
theorem passage_within {pos : Nat} {style : Style} {lineStart : Bool} {ending : Stop → Ending}
    (hcloses : style.Closes) (hstyle : style.InLine)
    (hfault : (ending .endOfInput).fault.isSome)
    (huncut : Uncut back t (text pos style lineStart ending t).tape.diagnostic) :
    style.passage lineStart (t.rest ++ back) = style.passage lineStart t.rest := by
  rcases huncut with rfl | ⟨hlines, hnone⟩
  · rw [List.append_nil]
  · refine Style.passage_append hcloses hstyle hlines (fun hstop => ?_) back
    have hending : (ending (style.passage lineStart t.rest).stop).fault = none :=
      Option.map_eq_none_iff.mp (Option.or_eq_none_iff.mp hnone).2
    rw [hstop] at hending
    rw [hending] at hfault
    cases hfault

theorem textSpan_within {style : Style} {lineStart : Bool}
    (hpassage : style.passage lineStart (t.rest ++ back) = style.passage lineStart t.rest) :
    textSpan style lineStart (t.within front back)
      = (textSpan style lineStart t).rebase front.length := by
  rw [textSpan, Tape.rest_within, hpassage, Tape.pos_within, Nat.add_assoc]
  rfl

/-- **A segment of text is read alike,** if its end is reported where the script ends. -/
theorem text_within {pos : Nat} {style : Style} {lineStart : Bool} {ending : Stop → Ending}
    (hpassage : style.passage lineStart (t.rest ++ back) = style.passage lineStart t.rest)
    (hshift : ∀ stop, (ending stop).shift.rebase front.length = (ending stop).shift) :
    text (front.length + pos) style lineStart ending (t.within front back)
      = (text pos style lineStart ending t).within front back := by
  have hspan : textSpan style lineStart (t.within front back) = _ := textSpan_within hpassage
  rw [text, text, hspan, Tape.rest_within, hpassage]
  generalize hp : style.passage lineStart t.rest = p
  have hahead : t.Ahead p := hp ▸ Tape.ahead_passage style lineStart t
  have hlength : p.stop.length
      ≤ ((t.transcriptOf [] 0 p).tape.keep ((ending p.stop).fault.map (⟨pos, ·⟩))).rest.length := by
    have hle := Style.length_stop_le style lineStart t.rest
    have hrest := (Tape.onward_transcriptOf style lineStart t).rest
    rw [hp] at hle hrest
    rw [Tape.rest_keep, hrest, List.length_drop]
    omega
  have hkeep : (ending p.stop).fault.map (Diagnostic.mk (front.length + pos))
      = ((ending p.stop).fault.map (Diagnostic.mk pos)).map (·.shift front.length) := by
    rw [Option.map_map]
    rfl
  simp only [Tape.transcriptOf_within front back t hahead]
  rw [hkeep, Tape.keep_within, Tape.advanceBy_within front back _ hlength]
  simp only [within, withLiteral, Token.withLiteral, Token.rebase, hshift, Option.map_some]

theorem verbatim_within {pos : Nat} {close : Byte} (h : verbatim pos close t = .ok r)
    (huncut : Uncut back t r.tape.diagnostic) :
    verbatim (front.length + pos) close (t.within front back) = .ok (r.within front back) := by
  rw [verbatim_eq] at h ⊢
  cases h
  refine congrArg Except.ok (text_within ?_ fun stop => by cases stop <;> rfl)
  exact passage_within (by trivial) (by trivial) rfl huncut

theorem segment_within {pos : Nat} {close : Byte} {resumed : Bool}
    (h : segment pos close resumed t = .ok r) (huncut : Uncut back t r.tape.diagnostic) :
    segment (front.length + pos) close resumed (t.within front back)
      = .ok (r.within front back) := by
  rw [segment_eq] at h ⊢
  cases h
  refine congrArg Except.ok (text_within ?_ fun stop => ?_)
  · exact passage_within (by trivial) (by trivial) rfl huncut
  · cases resumed <;> cases stop <;> rfl

/-- An introducer is read alike, and so is its absence. -/
theorem introducer?_within (hne : t.rest ≠ []) (huncut : Uncut back t d)
    {introducer : Option Reading} (h : introducer? t = .ok introducer) :
    introducer? (t.within front back) = .ok (introducer.map (·.within front back)) := by
  rw [introducer?, Tape.rest_within, ← Introducer.read?_congr (huncut.sameLine hne).sameWord]
  rw [introducer?] at h
  cases hread : Introducer.read? t.rest with
  | none =>
    rw [hread] at h
    cases h
    rfl
  | some i =>
    have hwithin := Introducer.within_read? hread
    cases i with
    | statements =>
      simp only [hread] at h
      cases h
      simp only [Tape.pos_within, Tape.advanceBy_within front back t hwithin]
      rfl
    | variableName kind length =>
      simp only [hread] at h
      obtain ⟨r', hr', hsome⟩ := exists_of_bind_eq_ok (f := fun r => .ok (some r)) h
      cases hsome
      have hspelled : spelled (front.length + t.pos) (front.length + (t.pos + 1)) kind .stay
          ((t.within front back).advanceBy (1 + length)) = .ok (r'.within front back) := by
        rw [Tape.advanceBy_within front back t hwithin.2.2]
        exact spelled_within hr'
      simp only [Tape.pos_within, Nat.add_assoc, hspelled]
      rfl

theorem resumedString_within {close : Byte} (hne : t.rest ≠ [])
    (h : resumedString close t = .ok r) (huncut : Uncut back t r.tape.diagnostic) :
    resumedString close (t.within front back) = .ok (r.within front back) := by
  obtain ⟨introducer, hintroducer, h⟩ := exists_of_bind_eq_ok h
  rw [resumedString, introducer?_within hne huncut hintroducer]
  cases introducer with
  | some r' =>
    cases h
    rfl
  | none =>
    rw [Tape.pos_within]
    exact segment_within h huncut

/-! ### Heredocs -/

section Heredocs

variable {source : List Byte} {heredoc : Heredoc}

/-- The style of a heredoc that is identified closes with a line that is not empty. -/
theorem heredocStyle_within {style : Style} (hnamed : (Region.heredocBody heredoc).Named t.pos)
    (hidentified : (Region.heredocBody heredoc).Identified source t.buffer)
    (h : heredocStyle heredoc t = .ok style) :
    heredocStyle (heredoc.rebase front.length) (t.within front back) = .ok style
      ∧ style.Closes ∧ style.InLine := by
  have hclosing := h
  obtain ⟨identifier, hslice, h⟩ := exists_of_bind_eq_ok h
  obtain ⟨identifier', -, hslice', hline⟩ := hidentified
  have hidentifier : identifier = identifier' := by
    rw [Tape.slice_eq_ok_iff, hslice'] at hslice
    exact (Option.some.inj hslice).symm
  subst hidentifier
  refine ⟨?_, ?_, ?_⟩
  · rw [heredocStyle, Heredoc.rebase, Tape.slice_within front back t hnamed.2 hslice]
    exact h
  · obtain ⟨style', hstyle, hcloses, -⟩ := exists_heredocStyle hnamed
    rw [hclosing] at hstyle
    cases hstyle
    exact hcloses
  · cases h
    cases heredoc.verbatim <;> exact hline

theorem bodySegment_within (hnamed : (Region.heredocBody heredoc).Named t.pos)
    (hidentified : (Region.heredocBody heredoc).Identified source t.buffer)
    (hfront : Line.startsBehind front) (h : bodySegment heredoc t = .ok r)
    (huncut : Uncut back t r.tape.diagnostic) :
    bodySegment (heredoc.rebase front.length) (t.within front back)
      = .ok (r.within front back) := by
  obtain ⟨style, hstyle, -⟩ := exists_of_bind_eq_ok h
  obtain ⟨hwithin, hcloses, hinline⟩ :
      heredocStyle (heredoc.rebase front.length) (t.within front back) = .ok style
        ∧ style.Closes ∧ style.InLine := heredocStyle_within hnamed hidentified hstyle
  rw [bodySegment_eq t hstyle] at h
  cases h
  rw [bodySegment_eq _ hwithin, Tape.isLineStart_within front back t hfront, Tape.pos_within]
  refine congrArg Except.ok (text_within ?_ fun stop => by cases stop <;> rfl)
  exact passage_within hcloses hinline rfl huncut

theorem heredocBody_within (hne : t.rest ≠ []) (hnamed : (Region.heredocBody heredoc).Named t.pos)
    (hidentified : (Region.heredocBody heredoc).Identified source t.buffer)
    (hfront : Line.startsBehind front) (h : heredocBody heredoc t = .ok r)
    (huncut : Uncut back t r.tape.diagnostic) :
    heredocBody (heredoc.rebase front.length) (t.within front back)
      = .ok (r.within front back) := by
  have hsame : (heredoc.rebase front.length).verbatim = heredoc.verbatim := rfl
  rw [heredocBody] at h ⊢
  rw [hsame]
  split at h
  · rename_i hverbatim
    rw [if_pos hverbatim]
    exact bodySegment_within hnamed hidentified hfront h huncut
  · rename_i hverbatim
    obtain ⟨introducer, hintroducer, h⟩ := exists_of_bind_eq_ok h
    rw [if_neg hverbatim, introducer?_within hne huncut hintroducer]
    cases introducer with
    | some r' =>
      cases h
      rfl
    | none => exact bodySegment_within hnamed hidentified hfront h huncut

end Heredocs

/-! ### Statements -/

theorem ofLexeme_within {lexeme : Lexeme} (hfits : lexeme.Fits t.rest.length)
    (h : ofLexeme lexeme t = .ok r) (huncut : Uncut back t r.tape.diagnostic) :
    ofLexeme lexeme (t.within front back) = .ok (r.within front back) := by
  cases lexeme with
  | bare kind length =>
    cases h
    rw [ofLexeme, Tape.pos_within, Tape.advanceBy_within front back t hfits.2.2, bare_within]
  | spelled kind length =>
    rw [ofLexeme, Tape.pos_within, Tape.advanceBy_within front back t hfits.2.2]
    exact spelled_within h
  | quoted isVerbatim close opener =>
    cases isVerbatim with
    | true =>
      rw [ofLexeme, Tape.pos_within, Tape.advanceBy_within front back t hfits.2]
      exact verbatim_within h (huncut.advanceBy opener)
    | false =>
      rw [ofLexeme, Tape.pos_within, Tape.advanceBy_within front back t hfits.2]
      exact segment_within h (huncut.advanceBy opener)
  | heredoc opener =>
    obtain ⟨span, hspan, h⟩ := exists_of_bind_eq_ok h
    have hstart : front.length + t.pos + 2 + opener.offset
        = front.length + (t.pos + 2 + opener.offset) := by omega
    simp only [ofLexeme, Tape.pos_within, Tape.advanceBy_within front back t hfits.2.2, hstart]
    rw [Nat.add_assoc front.length _ opener.size, Span.between_rebase, hspan]
    exact spelled_within h
  | malformed cause length shown =>
    have hlength : length ≤ (t.noteAt t.pos cause).rest.length := by
      rw [Tape.rest_noteAt]
      exact hfits.2
    have htape : ((t.within front back).noteAt (t.within front back).pos cause).advanceBy length
        = ((t.noteAt t.pos cause).advanceBy length).within front back := by
      rw [Tape.pos_within, Tape.noteAt_within, Tape.advanceBy_within front back _ hlength]
    cases shown with
    | true =>
      rw [ofLexeme, htape, Tape.pos_within]
      exact spelled_within h
    | false =>
      cases h
      rw [ofLexeme, htape, Tape.pos_within, bare_within]

/-- A block comment that is not closed is reported. -/
theorem opensAt_of_statement {lookback : Lookback} {b : Byte} {rest : List Byte}
    (h : statement lookback b rest t = .ok r) (hnone : r.tape.diagnostic = none) :
    BlockComment.opensAt (t.isLineStart t.pos) (b :: rest) = false := by
  by_contra hopen
  rw [Bool.not_eq_false] at hopen
  rw [statement, Lexeme.read_of_opensAt hopen] at h
  cases h
  rw [bare, Tape.noteAt_eq_keep] at hnone
  cases (Option.or_eq_none_iff.mp hnone).2

theorem statement_within {lookback : Lookback} {b : Byte} {rest : List Byte}
    (hrest : t.rest = b :: rest) (hfront : Line.startsBehind front)
    (h : statement lookback b rest t = .ok r) (huncut : Uncut back t r.tape.diagnostic) :
    statement lookback b (rest ++ back) (t.within front back) = .ok (r.within front back) := by
  have hlexeme : Lexeme.read lookback (t.isLineStart t.pos) b (rest ++ back)
      = Lexeme.read lookback (t.isLineStart t.pos) b rest := by
    have hline := huncut.sameLine (by rw [hrest]; exact List.cons_ne_nil b rest)
    rw [hrest] at hline
    rcases huncut with rfl | ⟨-, hnone⟩
    · rw [List.append_nil]
    · refine (Lexeme.read_congr lookback _ hline ?_).symm
      exact opensAt_of_statement h hnone
  rw [statement, Tape.isLineStart_within front back t hfront, hlexeme]
  refine ofLexeme_within ?_ h huncut
  rw [hrest]
  exact Lexeme.fits_read lookback rest _ b

end Reading

/-! ### Between tokens -/

namespace Tape

/-- Layout is not cut off by the end of the script: nothing follows there, or the script ends with
a line and something other than an open block comment stands behind the layout. -/
def UncutLayout (back : List Byte) (t t' : Tape) : Prop :=
  back = [] ∨ Line.startsBehind t.rest ∧ t'.rest ≠ []
    ∧ BlockComment.opensAt (t'.isLineStart t'.pos) t'.rest = false

theorem gap_within (hfront : Line.startsBehind front)
    (h : back = [] ∨ t.rest ≠ [] ∧ Line.startsBehind t.rest
      ∧ (Gap.read? (t.isLineStart t.pos) t.rest = none →
        BlockComment.opensAt (t.isLineStart t.pos) t.rest = false)) :
    Gap.read? ((t.within front back).isLineStart (t.within front back).pos)
      (t.within front back).rest = Gap.read? (t.isLineStart t.pos) t.rest := by
  rw [isLineStart_within front back t hfront, rest_within]
  rcases h with rfl | ⟨hne, hlines, hclosed⟩
  · rw [List.append_nil]
  · exact Gap.read?_append hne hlines hclosed back

/-- **Layout is skipped alike within a larger script.** -/
theorem skipLayout_within (hfront : Line.startsBehind front) (l : Lookback)
    (huncut : UncutLayout back t (t.skipLayout l).1) :
    (t.within front back).skipLayout l
      = ((t.skipLayout l).1.within front back, (t.skipLayout l).2) := by
  induction l, t using skipLayout.induct with
  | case1 l t hnone =>
    rw [skipLayout_of_none hnone] at huncut ⊢
    refine skipLayout_of_none ((gap_within hfront ?_).trans hnone)
    exact huncut.imp_right fun hends => ⟨hends.2.1, hends.1, fun _ => hends.2.2⟩
  | case2 l t g hg ih =>
    have hne : t.rest ≠ [] := by
      intro hnil
      rw [hnil, Gap.read?_nil] at hg
      cases hg
    rw [skipLayout_of_some hg] at huncut ⊢
    have hwithin : Gap.read? ((t.within front back).isLineStart (t.within front back).pos)
        (t.within front back).rest = some g := by
      refine (gap_within hfront ?_).trans hg
      refine huncut.imp_right fun hends => ⟨hne, hends.1, fun hnone => ?_⟩
      rw [hg] at hnone
      cases hnone
    rw [skipLayout_of_some hwithin,
      advanceBy_within front back t (Gap.length_le_of_read? hg)]
    exact ih (huncut.imp_right fun hends => ⟨Line.startsBehind_drop hends.1 _, hends.2⟩)

theorem startsBehind_skipLayout (h : Line.startsBehind t.rest) (l : Lookback) :
    Line.startsBehind (t.skipLayout l).1.rest := by
  obtain ⟨n, hmove, -⟩ := exists_skipLayout l t
  rw [(hmove ⟨0, 0⟩).rest]
  exact Line.startsBehind_drop h n

theorem startsBehind_honourEndMarker (h : Line.startsBehind t.rest) :
    Line.startsBehind t.honourEndMarker.rest := by
  rw [honourEndMarker]
  split
  · rfl
  · exact h

/-- The script does not end at a marker if bytes are left. -/
theorem honourEndMarker_eq (h : t.honourEndMarker.rest ≠ []) : t.honourEndMarker = t := by
  rw [honourEndMarker] at h ⊢
  split at h
  · exact absurd rfl h
  · rename_i hmarker
    rw [if_neg hmarker]

/-- The end marker is honoured alike within a larger script. -/
theorem honourEndMarker_within (hfront : Line.startsBehind front)
    (huncut : back = [] ∨ Line.startsBehind t.rest ∧ t.honourEndMarker.rest ≠ []) :
    (t.within front back).honourEndMarker = t.honourEndMarker.within front back := by
  have hmarker : Line.isEndMarker (t.rest ++ back) = Line.isEndMarker t.rest := by
    rcases huncut with rfl | ⟨hlines, hne⟩
    · rw [List.append_nil]
    · rw [honourEndMarker_eq hne] at hne
      exact (Line.isEndMarker_congr (.append hne hlines back)).symm
  rw [honourEndMarker, honourEndMarker, isLineStart_within front back t hfront, rest_within,
    hmarker]
  split
  · rename_i hends
    rcases huncut with rfl | ⟨-, hne⟩
    · rw [terminateAt_pos, terminateAt_pos]
      refine ext_parts rfl rfl ?_ rfl
      simp [within]
    · rw [honourEndMarker, if_pos hends] at hne
      exact absurd rfl hne
  · rfl

end Tape

namespace Lexer

variable {source : List Byte} {l l' : Lexer} {token : Token} {f : Frame} {b : Byte}
  {rest : List Byte}

/-- **What begins a token is read alike within a larger script.** -/
theorem read_within (hrest : t.rest = b :: rest) (hfront : Line.startsBehind front)
    (hnamed : f.region.Named t.pos) (hidentified : f.region.Identified source t.buffer)
    (h : read f b rest t = .ok r) (huncut : Uncut back t r.tape.diagnostic) :
    read (f.rebase front.length) b (rest ++ back) (t.within front back)
      = .ok (r.within front back) := by
  have hne : t.rest ≠ [] := by
    rw [hrest]
    exact List.cons_ne_nil b rest
  have hadvance : (t.within front back).advance = t.advance.within front back := by
    rw [Tape.advance_eq_advanceBy, Tape.advance_eq_advanceBy]
    exact Tape.advanceBy_within front back t (List.length_pos_iff.mpr hne)
  obtain ⟨region, lookback⟩ := f
  cases region with
  | statements => exact Reading.statement_within hrest hfront h huncut
  | quoted close => exact Reading.resumedString_within hne h huncut
  | interpolation braces =>
    simp only [read, Frame.rebase, Region.rebase] at h ⊢
    split at h
    · rename_i hclose
      cases h
      rw [if_pos hclose, hadvance, Tape.pos_within]
      rfl
    · rename_i hopen
      rw [if_neg hopen]
      exact Reading.statement_within hrest hfront h huncut
  | heredocLine heredoc =>
    simp only [read, Frame.rebase, Region.rebase] at h ⊢
    split at h
    · rename_i hclose
      cases h
      rw [if_pos hclose, hadvance, Tape.pos_within]
      rfl
    · rename_i hopen
      rw [if_neg hopen]
      exact Reading.statement_within hrest hfront h huncut
  | heredocBody heredoc => exact Reading.heredocBody_within hne hnamed hidentified hfront h huncut

theorem settle_of_holdsStatements (h : l.stack.top.region.holdsStatements) :
    l.settle = ⟨(l.tape.skipLayout l.stack.top.lookback).1.honourEndMarker,
      l.stack.withLookback (l.tape.skipLayout l.stack.top.lookback).2⟩ :=
  if_pos h

/-- What is left when the lexer has settled ends with a line, if what was left before does. -/
theorem startsBehind_settle (h : Line.startsBehind l.tape.rest) :
    Line.startsBehind l.settle.tape.rest := by
  by_cases hregion : l.stack.top.region.holdsStatements
  · rw [settle_of_holdsStatements hregion]
    exact Tape.startsBehind_honourEndMarker (Tape.startsBehind_skipLayout h _)
  · rw [settle, if_neg hregion]
    exact h

/-- **The next token is come to alike within a larger script.** -/
theorem settle_within (hfront : Line.startsBehind front)
    (huncut : back = [] ∨ Line.startsBehind l.tape.rest ∧ l.settle.tape.rest ≠ []
      ∧ (l.stack.top.region.holdsStatements →
        BlockComment.opensAt (l.settle.tape.isLineStart l.settle.tape.pos) l.settle.tape.rest
          = false)) :
    (l.within front back).settle = l.settle.within front back := by
  have hsame : (l.within front back).stack.top.region.holdsStatements
      = l.stack.top.region.holdsStatements := Region.holdsStatements_rebase _ _
  by_cases hregion : l.stack.top.region.holdsStatements
  · have hwithin := settle_of_holdsStatements (hsame.trans hregion)
    rw [settle_of_holdsStatements hregion] at huncut ⊢
    have hskip := Tape.skipLayout_within hfront l.stack.top.lookback <| huncut.imp_right
      fun hends => by
        obtain ⟨hlines, hne, hopen⟩ := hends
        simp only [Tape.honourEndMarker_eq hne] at hne hopen
        exact ⟨hlines, hne, hopen hregion⟩
    have hmarker := Tape.honourEndMarker_within hfront <| huncut.imp_right
      fun hends => ⟨Tape.startsBehind_skipLayout hends.1 _, hends.2.1⟩
    rw [hwithin]
    show Lexer.mk ((l.tape.within front back).skipLayout l.stack.top.lookback).1.honourEndMarker
      ((l.stack.rebase front.length).withLookback
        ((l.tape.within front back).skipLayout l.stack.top.lookback).2) = _
    rw [hskip, hmarker]
    rfl
  · rw [settle, if_neg (hsame.symm ▸ hregion), settle, if_neg hregion]

/-! ### Calls -/

/-- The end of the script is reported alike within a larger script. -/
theorem finish_within (front : List Byte) (l : Lexer) :
    (l.within front []).finish
      = (l.finish.1.rebase front.length, l.finish.2.within front []) := by
  have hdepth : (l.within front []).depth = l.depth :=
    congrArg (· + 1) (List.length_map ..)
  have hpos : (l.within front []).pos = front.length + l.pos := Tape.pos_within front [] l.tape
  rw [finish, finish, hdepth, hpos]
  split
  · refine Prod.ext rfl ?_
    show Lexer.mk ((l.tape.within front []).noteAt _ (missing (l.stack.rebase front.length))) _ = _
    rw [missing_rebase, Tape.noteAt_within]
    rfl
  · rfl

/-- A block comment is opened by a byte that ends no region. -/
theorem statement_of_opensAt {lineStart : Bool} (hregion : f.region.holdsStatements)
    (hopen : BlockComment.opensAt lineStart (b :: rest)) (h : read f b rest t = .ok r) :
    Reading.statement f.lookback b rest t = .ok r := by
  obtain rfl := BlockComment.head_of_opensAt hopen
  obtain ⟨region, lookback⟩ := f
  cases region with
  | statements => exact h
  | interpolation braces =>
    simp only [read] at h
    rwa [if_neg (fun hclose => absurd hclose.2 (by decide))] at h
  | heredocLine heredoc =>
    simp only [read] at h
    rwa [if_neg (by decide)] at h
  | quoted close | heredocBody heredoc => cases hregion

/-- **A call answers alike within a larger script,** if nothing follows there, or if what is left
ends with a line and the call neither comes to its end nor reports anything. -/
theorem Reads.next_within (h : l.Reads source) (hidentified : l.Identified source)
    (hfront : Line.startsBehind front) (hnext : l.next = .ok (token, l'))
    (huncut : back = [] ∨ Line.startsBehind l.tape.rest ∧ l'.diagnostic = none
      ∧ token.kind ≠ .endOfInput) :
    (l.within front back).next = .ok (token.rebase front.length, l'.within front back) := by
  rcases next_cases hnext with ⟨hrest, rfl, rfl⟩ | ⟨b, rest, r, hrest, hr, rfl, rfl⟩
  · obtain rfl : back = [] := huncut.resolve_right fun hends => hends.2.2 rfl
    rw [next, settle_within hfront (.inl rfl), step]
    have hnil : (l.settle.within front []).tape.rest = [] := by
      rw [within, Tape.rest_within, hrest]
      rfl
    rw [hnil]
    exact congrArg Except.ok (finish_within front l.settle)
  · have hstack : l.settle.stack.top.region = l.stack.top.region := by
      obtain ⟨lookback, hstack⟩ := exists_settle_stack l
      rw [hstack]
      rfl
    have hsettled : (l.within front back).settle = l.settle.within front back := by
      refine settle_within hfront (huncut.imp_right ?_)
      rintro ⟨hlines, hnone, -⟩
      refine ⟨hlines, by rw [hrest]; exact List.cons_ne_nil b rest, fun hregion => ?_⟩
      by_contra hopen
      rw [Bool.not_eq_false, hrest] at hopen
      have hstatement := statement_of_opensAt (hstack ▸ hregion) hopen hr
      rw [Reading.opensAt_of_statement hstatement hnone] at hopen
      cases hopen
    have hread := read_within hrest hfront (h.settle.1.named _ List.mem_cons_self)
      (h.identified_settle hidentified _ List.mem_cons_self) hr
      (huncut.imp_right fun hends => ⟨startsBehind_settle hends.1, hends.2.1⟩)
    rw [next, hsettled, step]
    have hcons : (l.settle.within front back).tape.rest = b :: (rest ++ back) := by
      rw [within, Tape.rest_within, hrest]
      rfl
    rw [hcons]
    show (read (l.settle.stack.top.rebase front.length) b (rest ++ back)
      (l.settle.tape.within front back) >>= fun r =>
        .ok (r.token, Lexer.mk r.tape
          ((l.settle.stack.rebase front.length).commit r.shift r.token.kind))) = _
    rw [hread]
    refine congrArg Except.ok (Prod.ext rfl ?_)
    show Lexer.mk _ ((l.settle.stack.rebase front.length).commit
      (r.shift.rebase front.length) r.token.kind) = _
    rw [Stack.commit_rebase]
    rfl

/-- What is left behind a call ends with a line, if what was left in front of it does. -/
theorem Reads.startsBehind_next (h : l.Reads source) (hnext : l.next = .ok (token, l'))
    (hlines : Line.startsBehind l.tape.rest) : Line.startsBehind l'.tape.rest := by
  rcases next_cases hnext with ⟨hrest, -, rfl⟩ | ⟨b, rest, r, hrest, hr, -, rfl⟩
  · have hfinish : l.settle.finish.2.tape.rest = l.settle.tape.rest := by
      rw [Lexer.finish]
      split
      · exact Tape.rest_noteAt _ _ _
      · rfl
    rw [hfinish, hrest]
    rfl
  · obtain ⟨r', n, hr', -, hlawful⟩ := exists_read hrest (h.settle.1.named _ List.mem_cons_self)
    rw [hr] at hr'
    cases hr'
    rw [hlawful.onward.rest]
    exact Line.startsBehind_drop (startsBehind_settle hlines) n

end Lexer

end ScriptLexer
