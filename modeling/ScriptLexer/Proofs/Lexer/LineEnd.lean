import ScriptLexer.Proofs.Lexeme.Form
import ScriptLexer.Proofs.Lexer.Beside
import ScriptLexer.Proofs.Lexer.Findings
import ScriptLexer.Proofs.Text.LineEnd

/-!
# Line ends and tokens

A script is divided into tokens of the same kinds if a carriage return is put in front of every line
feed. Its lexers answer call for call: what is unread of the one script is, with returns, what is
unread of the other, or both are in front of a line feed whose return has been read already. The
return is read as layout, as text, or with an identifier that is not closed on its line.

There is one exception, and that is a defect of the lexer. A backslash in front of a line end joins
two lines, in statements and in text. In statements it joins them whether the line ends with a
return or not; in text an escape takes one byte, and that is the return, if there is one. The line
feed behind it then starts a line, and if that line closes a heredoc, the heredoc ends there.

## Main definitions

* `Lexer.HidesClosingLine` — an escape takes the line feed in front of the line that closes a heredoc
* `Outlook.Returned` — what lies ahead in the script with returns

## Main results

* `Layer.read_returned` — what begins with a byte
* `Outlook.Returned.next` — a call
* `line_ends_keep_kinds` — line ends do not change the kinds of tokens, if no closing line is hidden
-/

namespace ScriptLexer

variable {x : List Byte}

/-! ### What closes constructs -/

/-- What closes a text of the construct can be in a script. -/
def Scene.ClosesInLine : Scene → Prop
  | statements | interpolation _ => True
  | quoted close => (Style.decoded close).ClosesInLine
  | heredocLine style | heredocBody style => style.ClosesInLine

/-- A construct that is opened closes in line. -/
def Turn.ClosesInLine : Turn → Prop
  | stay | pop => True
  | push scene | swap scene => scene.ClosesInLine

/-- The byte that closes a literal is punctuation, so no line ends with it. -/
theorem Lexeme.Form.close {l : Lookback} {lineStart isVerbatim : Bool} {close : Byte}
    {opener : Nat} (h : Form l lineStart x (.quoted isVerbatim close opener)) :
    close ≠ Byte.newline ∧ close ≠ 0x0D := by
  have hpunctuation := h.isPunctuation_close
  constructor
  · rintro rfl
    cases hpunctuation
  · rintro rfl
    cases hpunctuation

/-- The body of a heredoc is read in one style in both scripts, if no line ends in its opener. -/
theorem HeredocOpener.style_withReturns (opener : HeredocOpener) (hsize : 0 < opener.size)
    (hinside : opener.offset + opener.size ≤ opener.length) (hle : 2 + opener.length ≤ x.length)
    (hline : Byte.newline ∉ x.take (2 + opener.length)) (hreturn : 0x0D ∉ x) :
    opener.style (withReturns x) = opener.style x ∧ (opener.style x).ClosesInLine := by
  have hfront : ∀ n, n ≤ 2 + opener.length → Byte.newline ∉ x.take n := fun n hn hmem =>
    hline ((List.take_prefix_take_left hn).subset hmem)
  have hidentifier : (x.drop (2 + opener.offset)).take opener.size
      = (x.take (2 + opener.offset + opener.size)).drop (2 + opener.offset) := by
    rw [List.drop_take, Nat.add_sub_cancel_left]
  have hnewline : Byte.newline ∉ (x.drop (2 + opener.offset)).take opener.size := by
    rw [hidentifier]
    exact fun hmem => hfront _ (by omega) (List.mem_of_mem_drop hmem)
  have hbehind : (withReturns x).drop (2 + opener.offset) = withReturns (x.drop (2 + opener.offset)) :=
    (split_withReturns_of_notMem (by omega) (hfront _ (by omega))).2
  have hlength : opener.size ≤ (x.drop (2 + opener.offset)).length := by
    rw [List.length_drop]
    omega
  refine ⟨?_, ?_⟩
  · rw [style, style, hbehind, (split_withReturns_of_notMem hlength hnewline).1]
  · have hinline : TerminatorLine.InLine
        ⟨(x.drop (2 + opener.offset)).take opener.size, opener.indented⟩ := by
      refine ⟨fun hnil => ?_, hnewline, fun hmem => ?_⟩
      · have hzero := congrArg List.length hnil
        rw [List.length_take, Nat.min_eq_left hlength] at hzero
        exact absurd hzero (Nat.ne_of_gt hsize)
      · exact hreturn (List.mem_of_mem_drop (List.mem_of_mem_take hmem))
    rw [style, TerminatorLine.style]
    split
    · exact hinline
    · exact hinline

/-! ### Outcomes -/

namespace Outcome

/-- What is found at the front of bytes in both scripts: tokens of one kind, which end at the same
place and do the same to the constructs. -/
structure Returned (bytes : List Byte) (r r' : Outcome) : Prop where
  kind : r'.kind = r.kind
  turn : r'.turn = r.turn
  closes : r.turn.ClosesInLine
  length : r'.length = (withReturns (bytes.take r.length)).length

/-- What is found at the front of bytes in both scripts breaks off in front of a line feed, and the
return in front of that is taken in. -/
structure BreaksOff (bytes : List Byte) (r r' : Outcome) : Prop where
  kind : r'.kind = r.kind
  turn : r.turn = .stay
  turn' : r'.turn = .stay
  feed : ∃ rest, bytes.drop r.length = Byte.newline :: rest
    ∧ (withReturns bytes).drop r'.length = Byte.newline :: withReturns rest

variable {bytes : List Byte}

/-- A segment of text is the same, unless an escape hides the line that closes it. -/
theorem text_returned {style : Style} {lineStart : Bool} {ending : Stop → Ending} {opener : Nat}
    (hstyle : style.ClosesInLine) (hending : ∀ stop, ((ending stop).shift.turn []).ClosesInLine)
    (hopener : opener ≤ bytes.length) (hline : Byte.newline ∉ bytes.take opener)
    (hreturn : 0x0D ∉ bytes) (hhides : style.hides lineStart (bytes.drop opener) = false) :
    (text style lineStart ending opener bytes).Returned bytes
      (text style lineStart ending opener (withReturns bytes)) := by
  obtain ⟨hstop, hlength⟩ := style.length_stop_withReturns hstyle lineStart
    (fun hmem => hreturn (List.mem_of_mem_drop hmem)) hhides
  simp only [text, (split_withReturns_of_notMem hopener hline).2, hstop]
  rw [hstop] at hlength
  refine ⟨rfl, rfl, hending _, ?_⟩
  simp only
  rw [hlength, length_withReturns_take_add opener, length_withReturns_take hopener hline]

/-- What a lexeme describes is the same, if the lexeme is and no line ends in it. -/
theorem ofLexeme_returned {lexeme : Lexeme} (hfits : lexeme.Fits bytes.length)
    (hline : Byte.newline ∉ bytes.take lexeme.extent) (hreturn : 0x0D ∉ bytes)
    (hclose : ∀ isVerbatim close opener, lexeme = .quoted isVerbatim close opener →
      close ≠ Byte.newline ∧ close ≠ 0x0D) :
    (ofLexeme bytes lexeme).Returned bytes (ofLexeme (withReturns bytes) lexeme) := by
  have hextent := length_withReturns_take hfits.extent_le hline
  cases lexeme with
  | bare kind length => exact ⟨rfl, rfl, trivial, hextent.symm⟩
  | spelled kind length => exact ⟨rfl, rfl, trivial, hextent.symm⟩
  | malformed cause length shown => exact ⟨rfl, rfl, trivial, hextent.symm⟩
  | quoted isVerbatim close opener =>
    have hcloses := hclose _ _ _ rfl
    cases isVerbatim with
    | true =>
      refine text_returned hcloses ?_ hfits.2 hline hreturn (Style.hides_of_quoted rfl _ _)
      rintro (_ | _ | _) <;> trivial
    | false =>
      refine text_returned hcloses ?_ hfits.2 hline hreturn (Style.hides_of_quoted rfl _ _)
      rintro (_ | _ | _)
      · trivial
      · exact hcloses
      · trivial
  | heredoc opener =>
    obtain ⟨hsize, hinside, hle⟩ := hfits
    obtain ⟨hstyle, hcloses⟩ := opener.style_withReturns hsize hinside hle hline hreturn
    exact ⟨rfl, by rw [ofLexeme, hstyle]; rfl, hcloses, hextent.symm⟩

/-- An introducer is the same, and text begins with one in both scripts or in neither. -/
theorem introducer?_returned {segment segment' : Outcome} (h : segment.Returned bytes segment') :
    ((introducer? bytes).getD segment).Returned bytes
      ((introducer? (withReturns bytes)).getD segment') := by
  rw [introducer?, introducer?, ← Introducer.read?_congr (SameWord.withReturns bytes)]
  cases hread : Introducer.read? bytes with
  | none => exact h
  | some introducer =>
    have hextent := length_withReturns_take (Introducer.extent_le hread)
      (Introducer.newline_notMem_extent hread)
    cases introducer with
    | statements => exact ⟨rfl, rfl, trivial, hextent.symm⟩
    | variableName kind length => exact ⟨rfl, rfl, trivial, hextent.symm⟩

/-- What begins with a byte of a statement is the same, or it breaks off. -/
theorem statement_returned (lookback : Lookback) (lineStart : Bool) {b : Byte} {rest : List Byte}
    (hb : b ≠ Byte.newline) (hreturn : 0x0D ∉ b :: rest) :
    let statement := fun rest => ofLexeme (b :: rest) (Lexeme.read lookback lineStart b rest)
    (statement rest).Returned (b :: rest) (statement (withReturns rest))
      ∨ (statement rest).BreaksOff (b :: rest) (statement (withReturns rest)) := by
  have hbytes : withReturns (b :: rest) = b :: withReturns rest := withReturns_cons hb rest
  by_cases hopen : BlockComment.opensAt lineStart (b :: rest)
  · -- A block comment that is not closed takes all that is left.
    have hopen' : BlockComment.opensAt lineStart (b :: withReturns rest) := by
      rwa [← BlockComment.opensAt_congr lineStart ((SameWord.withReturns rest).cons b)]
    simp only [Lexeme.read_of_opensAt hopen, Lexeme.read_of_opensAt hopen']
    have hall : (b :: rest).take (rest.length + 1) = b :: rest :=
      List.take_of_length_le (Nat.le_refl _)
    refine .inl ⟨rfl, rfl, trivial, ?_⟩
    show (withReturns rest).length + 1 = (withReturns ((b :: rest).take (rest.length + 1))).length
    rw [hall, hbytes, List.length_cons]
  · rw [Bool.not_eq_true] at hopen
    rcases Lexeme.read_withReturns lookback lineStart hopen with
      hsame | ⟨n, behind, hx, hreturns, hrest, hbehind⟩
    · simp only [hsame, ← hbytes]
      refine .inl (ofLexeme_returned (Lexeme.fits_read ..)
        (Lexeme.newline_notMem_extent lookback lineStart hb hopen) hreturn ?_)
      intro isVerbatim close opener hquoted
      have hform := Lexeme.form_read lookback lineStart b rest
      rw [hquoted] at hform
      exact hform.close
    · simp only [hx, hreturns]
      refine .inr ⟨rfl, rfl, rfl, behind, hrest, ?_⟩
      rw [hbytes]
      exact hbehind

end Outcome

/-! ### Layers -/

/-- **What begins with a byte** is the same in both scripts, or it breaks off in front of a line
feed. -/
theorem Layer.read_returned {layer : Layer} {lineStart : Bool} {b b' : Byte}
    {rest rest' : List Byte} (hbytes : withReturns (b :: rest) = b' :: rest')
    (hreturn : 0x0D ∉ b :: rest) (hcloses : layer.scene.ClosesInLine)
    (hfeed : layer.scene.holdsStatements → b ≠ Byte.newline)
    (hclear : ∀ style, layer.scene = .heredocBody style →
      style.hides lineStart (b :: rest) = false) :
    (layer.read lineStart b rest).Returned (b :: rest) (layer.read lineStart b' rest')
      ∨ layer.scene.holdsStatements
        ∧ (layer.read lineStart b rest).BreaksOff (b :: rest) (layer.read lineStart b' rest') := by
  obtain ⟨scene, lookback⟩ := layer
  have hstatement : scene.holdsStatements → b' = b ∧ rest' = withReturns rest := by
    intro hholds
    rw [withReturns_cons (hfeed hholds), List.cons.injEq] at hbytes
    exact ⟨hbytes.1.symm, hbytes.2.symm⟩
  cases scene with
  | statements =>
    obtain ⟨rfl, rfl⟩ := hstatement rfl
    exact (Outcome.statement_returned lookback lineStart (hfeed rfl) hreturn).imp_right (⟨rfl, ·⟩)
  | interpolation braces =>
    obtain ⟨rfl, rfl⟩ := hstatement rfl
    simp only [read]
    split
    · rename_i hclose
      refine .inl ⟨rfl, rfl, trivial, ?_⟩
      rw [List.take_succ_cons, withReturns_cons (hfeed rfl)]
      rfl
    · exact (Outcome.statement_returned lookback lineStart (hfeed rfl) hreturn).imp_right (⟨rfl, ·⟩)
  | heredocLine style =>
    obtain ⟨rfl, rfl⟩ := hstatement rfl
    simp only [read, if_neg (hfeed rfl)]
    exact (Outcome.statement_returned lookback lineStart (hfeed rfl) hreturn).imp_right (⟨rfl, ·⟩)
  | quoted close =>
    simp only [read, ← hbytes]
    refine .inl (Outcome.introducer?_returned ?_)
    refine Outcome.text_returned hcloses ?_ (Nat.zero_le _) List.not_mem_nil hreturn
      (Style.hides_of_quoted rfl _ _)
    rintro (_ | _ | _) <;> trivial
  | heredocBody style =>
    have hsegment : (Outcome.text style lineStart .body 0 (b :: rest)).Returned (b :: rest)
        (Outcome.text style lineStart .body 0 (withReturns (b :: rest))) := by
      refine Outcome.text_returned hcloses ?_ (Nat.zero_le _) List.not_mem_nil hreturn
        (hclear style rfl)
      rintro (_ | _ | _) <;> trivial
    simp only [read, ← hbytes]
    split
    · exact .inl (Outcome.introducer?_returned hsegment)
    · exact .inl hsegment

/-- A line feed ends a line of statements, and with it the line of a heredoc's opener. -/
theorem Layer.read_newline {scene : Scene} (hcloses : scene.ClosesInLine)
    (hholds : scene.holdsStatements) :
    ∃ turn : Turn, (turn = .stay ∨ ∃ scene, turn = .swap scene) ∧ turn.ClosesInLine
      ∧ ∀ lookback lineStart rest, Layer.read ⟨scene, lookback⟩ lineStart Byte.newline rest
        = ⟨.newLine, 1, none, turn, none⟩ := by
  cases scene with
  | quoted close | heredocBody style => cases hholds
  | statements => exact ⟨.stay, .inl rfl, trivial, fun _ _ _ => rfl⟩
  | interpolation braces =>
    refine ⟨.stay, .inl rfl, trivial, fun lookback lineStart rest => ?_⟩
    have hopen : ¬ (braces = 0 ∧ Byte.newline = Byte.ofChar '\x7d') :=
      fun h => absurd h.2 (by decide)
    simp only [read, if_neg hopen]
    rfl
  | heredocLine style =>
    exact ⟨.swap (.heredocBody style), .inr ⟨_, rfl⟩, hcloses, fun _ _ _ => rfl⟩

/-! ### Outlooks -/

theorem Scene.holdsStatements_countBrace (kind : Kind) (scene : Scene) :
    (scene.countBrace kind).holdsStatements = scene.holdsStatements := by
  cases scene with
  | interpolation braces =>
    rw [countBrace.eq_def]
    dsimp only
    split <;> rfl
  | statements | quoted close | heredocLine style | heredocBody style => rfl

theorem Scene.ClosesInLine.countBrace (kind : Kind) {scene : Scene} (h : scene.ClosesInLine) :
    (scene.countBrace kind).ClosesInLine := by
  cases scene with
  | interpolation braces =>
    rw [Scene.countBrace.eq_def]
    dsimp only
    split <;> trivial
  | statements | quoted close | heredocLine style | heredocBody style => exact h

namespace Outlook

variable {o o' : Outlook}

/-- The outlook with returns ahead. -/
def withReturns (o : Outlook) : Outlook :=
  { o with rest := ScriptLexer.withReturns o.rest }

/-- Two outlooks have one line feed ahead, with the same bytes behind it but for the returns, and
what opened the constructs is the same. -/
structure AtFeed (o o' : Outlook) : Prop where
  feed : ∃ rest, o.rest = Byte.newline :: rest
    ∧ o'.rest = Byte.newline :: ScriptLexer.withReturns rest
  scene : o'.top.scene = o.top.scene
  below : o'.below = o.below
  holds : o.top.scene.holdsStatements

/-- What lies ahead in the script with returns. -/
inductive Returned (o : Outlook) : Outlook → Prop
  | same : Returned o o.withReturns
  | atFeed {o' : Outlook} (h : AtFeed o o') : Returned o o'

/-- Where a token of a statement begins, both outlooks are in front of its first byte. -/
def Settled (o o' : Outlook) : Prop :=
  (o.rest.head? ≠ some Byte.newline ∧ o' = o.withReturns) ∨ AtFeed o o'

/-- No return is ahead, and the constructs close in line. -/
structure InLine (o : Outlook) : Prop where
  rest : 0x0D ∉ o.rest
  top : o.top.scene.ClosesInLine
  below : ∀ layer ∈ o.below, layer.scene.ClosesInLine

/-- No escape ahead hides the line that closes a heredoc whose body is read. -/
def clear (o : Outlook) : Bool :=
  match o.top.scene with
  | .heredocBody style => !style.hides o.lineStart o.rest
  | _ => true

theorem clear_eq_true_iff :
    o.clear ↔ ∀ style, o.top.scene = .heredocBody style → style.hides o.lineStart o.rest = false := by
  rw [clear]
  split
  · rename_i style hscene
    rw [hscene, Bool.not_eq_true']
    refine ⟨?_, fun h => h style rfl⟩
    rintro hhides _ ⟨⟩
    exact hhides
  · rename_i hscene
    exact iff_of_true rfl fun style h => absurd h (hscene style)

theorem advanceBy_withReturns (n : Nat) (o : Outlook) :
    o.withReturns.advanceBy (ScriptLexer.withReturns (o.rest.take n)).length
      = (o.advanceBy n).withReturns := by
  obtain ⟨htake, hdrop⟩ := split_withReturns n o.rest
  have hstarts : Line.startsAfter o.lineStart (ScriptLexer.withReturns (o.rest.take n))
      = Line.startsAfter o.lineStart (o.rest.take n) := by
    rw [Line.startsAfter, Line.startsAfter, getLast?_withReturns]
  simp only [advanceBy, withReturns, htake, hdrop, hstarts]

theorem commit_withReturns (turn : Turn) (kind : Kind) (o : Outlook) :
    o.withReturns.commit turn kind = (o.commit turn kind).withReturns := by
  cases turn with
  | stay | push scene | swap scene => rfl
  | pop =>
    obtain ⟨rest, lineStart, top, below⟩ := o
    cases below <;> rfl

namespace InLine

theorem advanceBy (n : Nat) (h : o.InLine) : (o.advanceBy n).InLine :=
  ⟨fun hmem => h.rest (List.mem_of_mem_drop hmem), h.top, h.below⟩

theorem pass (g : Gap) (h : o.InLine) : (o.pass g).InLine :=
  ⟨(h.advanceBy g.length).rest, h.top, h.below⟩

theorem skipLayout (h : o.InLine) : o.skipLayout.InLine := by
  induction o using skipLayout.induct with
  | case1 o hnone => rwa [skipLayout_of_none hnone]
  | case2 o g hg ih =>
    rw [skipLayout_of_some hg]
    exact ih (h.pass g)

theorem settle (h : o.InLine) : o.settle.InLine := by
  rw [Outlook.settle]
  split
  · rw [honourEndMarker]
    split
    · exact ⟨List.not_mem_nil, h.skipLayout.top, h.skipLayout.below⟩
    · exact h.skipLayout
  · exact h

theorem commit {turn : Turn} (kind : Kind) (h : o.InLine) (hturn : turn.ClosesInLine) :
    (o.commit turn kind).InLine := by
  have htop : (o.top.record kind).scene.ClosesInLine := h.top.countBrace kind
  cases turn with
  | stay => exact ⟨h.rest, htop, h.below⟩
  | push scene =>
    refine ⟨h.rest, hturn, ?_⟩
    rintro layer (_ | ⟨_, hmem⟩)
    · exact htop
    · exact h.below layer hmem
  | swap scene => exact ⟨h.rest, Scene.ClosesInLine.countBrace kind hturn, h.below⟩
  | pop =>
    rw [Outlook.commit]
    split
    · exact ⟨h.rest, htop, h.below⟩
    · rename_i layer below hbelow
      have hall : ∀ layer' ∈ layer :: below, layer'.scene.ClosesInLine := hbelow ▸ h.below
      exact ⟨h.rest, (hall layer List.mem_cons_self).countBrace kind,
        fun layer' hmem => hall layer' (List.mem_cons_of_mem _ hmem)⟩

end InLine

/-! ### Layout -/

/-- In front of a line feed there is no layout. -/
theorem skipLayout_of_newline {rest : List Byte} (h : o.rest = Byte.newline :: rest) :
    o.skipLayout = o :=
  skipLayout_of_none (h ▸ Gap.read?_of_isSolid rfl _ _)

theorem AtFeed.skipLayout (h : AtFeed o o') : AtFeed o.skipLayout o'.skipLayout := by
  obtain ⟨rest, hrest, hrest'⟩ := h.feed
  rwa [skipLayout_of_newline hrest, skipLayout_of_newline hrest']

/-- The return in front of a line feed is a blank. -/
theorem atFeed_skipLayout {rest : List Byte} (hholds : o.top.scene.holdsStatements)
    (hrest : o.rest = Byte.newline :: rest) : AtFeed o.skipLayout o.withReturns.skipLayout := by
  have hrest' : o.withReturns.rest = 0x0D :: Byte.newline :: ScriptLexer.withReturns rest := by
    rw [withReturns, hrest]
    rfl
  have hblank : Gap.read? o.withReturns.lineStart o.withReturns.rest = some ⟨0, true⟩ := by
    rw [hrest']
    rfl
  have hpass : (o.withReturns.pass ⟨0, true⟩).rest = Byte.newline :: ScriptLexer.withReturns rest :=
    congrArg (List.drop 1) hrest'
  rw [skipLayout_of_newline hrest, skipLayout_of_some hblank, skipLayout_of_newline hpass]
  exact ⟨⟨rest, hrest, hpass⟩, rfl, rfl, hholds⟩

/-- Layout is skipped alike, up to the first byte of a token or up to a line feed. -/
theorem settled_skipLayout (h : o.InLine) (hholds : o.top.scene.holdsStatements) :
    Settled o.skipLayout o.withReturns.skipLayout := by
  induction o using skipLayout.induct with
  | case1 o hnone =>
    by_cases hhead : o.rest.head? = some Byte.newline
    · obtain ⟨rest, hrest⟩ := List.head?_eq_some_iff.mp hhead
      exact .inr (atFeed_skipLayout hholds hrest)
    · rcases Gap.read?_withReturns o.lineStart h.rest hhead with ⟨-, hnone'⟩ | ⟨g, g', hg, -⟩
      · rw [skipLayout_of_none hnone]
        exact .inl ⟨hhead, skipLayout_of_none hnone'⟩
      · rw [hnone] at hg
        cases hg
  | case2 o g hg ih =>
    have hhead : o.rest.head? ≠ some Byte.newline := by
      intro hhead
      obtain ⟨rest, hrest⟩ := List.head?_eq_some_iff.mp hhead
      rw [hrest, Gap.read?_of_isSolid rfl] at hg
      cases hg
    rcases Gap.read?_withReturns o.lineStart h.rest hhead with
      ⟨hnone, -⟩ | ⟨g₁, g', hg₁, hg', hseparates, hends⟩
    · rw [hg] at hnone
      cases hnone
    · rw [hg] at hg₁
      cases hg₁
      have hskip : o.withReturns.skipLayout = (o.withReturns.pass g').skipLayout :=
        skipLayout_of_some hg'
      rw [skipLayout_of_some hg, hskip]
      rcases hends with hlength | hfeed
      · have hpass : o.withReturns.pass g' = (o.pass g).withReturns := by
          rw [pass, hlength, advanceBy_withReturns, hseparates]
          rfl
        rw [hpass]
        exact ih (h.pass g) hholds
      · have hpass : AtFeed (o.pass g) (o.withReturns.pass g') := ⟨hfeed, rfl, rfl, hholds⟩
        exact .inr hpass.skipLayout

/-- An end marker is honoured in both scripts or in neither. -/
theorem Settled.honourEndMarker (h : Settled o o') (hreturn : 0x0D ∉ o.rest) :
    Settled o.honourEndMarker o'.honourEndMarker := by
  rcases h with ⟨hhead, rfl⟩ | hfeed
  · have hmarker : (o.withReturns.lineStart && Line.isEndMarker o.withReturns.rest)
        = (o.lineStart && Line.isEndMarker o.rest) :=
      congrArg (o.lineStart && ·) (Line.isEndMarker_withReturns hreturn)
    rw [Outlook.honourEndMarker, Outlook.honourEndMarker, hmarker]
    split
    · exact .inl ⟨Ne.symm (Option.some_ne_none _), rfl⟩
    · exact .inl ⟨hhead, rfl⟩
  · obtain ⟨rest, hrest, hrest'⟩ := hfeed.feed
    have hmarker : ∀ o₁ : Outlook, ∀ rest, o₁.rest = Byte.newline :: rest →
        (o₁.lineStart && Line.isEndMarker o₁.rest) = false := by
      intro o₁ rest hrest
      rw [hrest, Line.isEndMarker_of_isSolid rfl, Bool.and_false]
    rw [honourEndMarker_of_eq_false (hmarker o _ hrest),
      honourEndMarker_of_eq_false (hmarker o' _ hrest')]
    exact .inr hfeed

/-- Where a token of a statement begins in one script, it begins in the other. -/
theorem settled_settle (h : Returned o o') (hinline : o.InLine)
    (hholds : o.top.scene.holdsStatements) : Settled o.settle o'.settle := by
  cases h with
  | same =>
    have hholds' : o.withReturns.top.scene.holdsStatements := hholds
    rw [settle, settle, if_pos hholds, if_pos hholds']
    exact (settled_skipLayout hinline hholds).honourEndMarker hinline.skipLayout.rest
  | atFeed h =>
    rw [settle, settle, if_pos hholds, if_pos (h.scene ▸ hholds)]
    exact Settled.honourEndMarker (.inr h.skipLayout) hinline.skipLayout.rest

/-! ### Calls -/

/-- The token of a line feed tells nothing apart but the returns ahead. -/
theorem step_atFeed (h : AtFeed o o') (hinline : o.InLine) :
    o'.step.1.kind = o.step.1.kind ∧ Returned o.step.2 o'.step.2 ∧ o.step.2.InLine := by
  obtain ⟨bytes, lineStart, ⟨scene, lookback⟩, below⟩ := o
  obtain ⟨bytes', lineStart', ⟨scene', lookback'⟩, below'⟩ := o'
  obtain ⟨⟨rest, rfl, rfl⟩, hscene, hbelow, hholds⟩ := h
  obtain rfl : scene' = scene := hscene
  obtain rfl : below' = below := hbelow
  obtain ⟨turn, hturn, hclose, hread⟩ := Layer.read_newline hinline.top hholds
  rw [step_of_cons rfl, step_of_cons rfl, hread, hread]
  refine ⟨rfl, ?_, (hinline.advanceBy 1).commit _ hclose⟩
  rcases hturn with rfl | ⟨scene, rfl⟩
  · exact .same
  · exact .same

/-- **What begins at the front of an outlook** begins in both scripts, if it is not a line feed. -/
theorem step_returned (hinline : o.InLine) (hclear : o.clear)
    (hfeed : o.top.scene.holdsStatements → o.rest.head? ≠ some Byte.newline) :
    o.withReturns.step.1.kind = o.step.1.kind ∧ Returned o.step.2 o.withReturns.step.2
      ∧ o.step.2.InLine := by
  cases hrest : o.rest with
  | nil =>
    have hrest' : o.withReturns.rest = [] := congrArg ScriptLexer.withReturns hrest
    rw [step_of_nil hrest, step_of_nil hrest']
    exact ⟨rfl, .same, hinline⟩
  | cons b rest =>
    have hhead : o.top.scene.holdsStatements → b ≠ Byte.newline := by
      intro hholds hb
      exact hfeed hholds (hrest ▸ congrArg some hb)
    obtain ⟨b', rest', hbytes⟩ : ∃ b' rest', ScriptLexer.withReturns (b :: rest) = b' :: rest' := by
      by_cases hb : b = Byte.newline
      · exact ⟨_, _, hb ▸ withReturns_newline rest⟩
      · exact ⟨_, _, withReturns_cons hb rest⟩
    have hrest' : o.withReturns.rest = b' :: rest' := by rw [withReturns, hrest, hbytes]
    have hreturn := hinline.rest
    rw [clear_eq_true_iff, hrest] at hclear
    rw [hrest] at hreturn
    rw [step_of_cons hrest, step_of_cons hrest']
    have hread := Layer.read_returned hbytes hreturn hinline.top hhead hclear
    show (o.top.read o.lineStart b' rest').kind = (o.top.read o.lineStart b rest).kind
      ∧ Returned _ ((o.withReturns.advanceBy (o.top.read o.lineStart b' rest').length).commit
        (o.top.read o.lineStart b' rest').turn (o.top.read o.lineStart b' rest').kind) ∧ _
    generalize o.top.read o.lineStart b rest = r at hread ⊢
    generalize o.top.read o.lineStart b' rest' = r' at hread ⊢
    rcases hread with hsame | ⟨hholds, hbreaks⟩
    · rw [hsame.length, hsame.turn, hsame.kind, ← hrest, advanceBy_withReturns,
        commit_withReturns]
      exact ⟨rfl, .same, (hinline.advanceBy _).commit _ hsame.closes⟩
    · obtain ⟨behind, hbehind, hbehind'⟩ := hbreaks.feed
      have hstay : Turn.stay.ClosesInLine := trivial
      rw [hbreaks.kind, hbreaks.turn, hbreaks.turn']
      refine ⟨rfl, .atFeed ⟨⟨behind, ?_, ?_⟩, rfl, rfl, ?_⟩, (hinline.advanceBy _).commit _ hstay⟩
      · rw [← hbehind, ← hrest]
        rfl
      · rw [← hbehind', ← hrest]
        rfl
      · exact (Scene.holdsStatements_countBrace _ _).trans hholds

/-- **A call finds a token of the same kind in both scripts.** -/
theorem Returned.next (h : Returned o o') (hinline : o.InLine) (hclear : o.clear) :
    o'.next.1.kind = o.next.1.kind ∧ Returned o.next.2 o'.next.2 ∧ o.next.2.InLine := by
  by_cases hholds : o.top.scene.holdsStatements
  · have hclear' : o.settle.clear := by
      rw [clear_eq_true_iff]
      intro style hscene
      rw [scene_settle] at hscene
      rw [hscene] at hholds
      cases hholds
    rcases settled_settle h hinline hholds with ⟨hhead, hsame⟩ | hfeed
    · rw [Outlook.next, Outlook.next, hsame]
      exact step_returned hinline.settle hclear' fun _ => hhead
    · exact step_atFeed hfeed hinline.settle
  · have hsettle : ∀ o₁ : Outlook, ¬ o₁.top.scene.holdsStatements → o₁.settle = o₁ :=
      fun o₁ hholds => if_neg hholds
    cases h with
    | same =>
      rw [Outlook.next, Outlook.next, hsettle o hholds, hsettle o.withReturns hholds]
      exact step_returned hinline hclear fun hholds' => absurd hholds' hholds
    | atFeed h => exact absurd h.holds hholds

/-- **Calls find tokens of the same kinds in both scripts.** -/
theorem Returned.findings (h : Returned o o') (hinline : o.InLine)
    (hclear : ∀ k, (o.after k).clear) (n pos pos' : Nat) :
    (o'.findings n pos').map (·.kind) = (o.findings n pos).map (·.kind) := by
  induction n generalizing o o' pos pos' with
  | zero => rfl
  | succ n ih =>
    obtain ⟨hkind, hbehind, hinline'⟩ := h.next hinline (hclear 0)
    rw [Outlook.findings, Outlook.findings, List.map_cons, List.map_cons]
    refine congrArg₂ _ hkind (ih hbehind hinline' (fun k => hclear (k + 1)) _ _)

/-- Nothing is ahead behind the end. -/
theorem rest_next_of_nil (h : o.rest = []) : o.next.2.rest = [] := by
  have hskip : o.skipLayout = o := skipLayout_of_none (h ▸ Gap.read?_nil _)
  have hsettle : o.settle.rest = [] := by
    rw [settle, honourEndMarker, hskip]
    split
    · split
      · rfl
      · exact h
    · exact h
  rw [next, step_of_nil hsettle, hsettle]

theorem rest_after_of_nil (h : o.rest = []) (n : Nat) : (o.after n).rest = [] := by
  induction n generalizing o with
  | zero => exact h
  | succ n ih => exact ih (rest_next_of_nil h)

theorem clear_of_nil (h : o.rest = []) : o.clear := by
  rw [clear_eq_true_iff]
  intro style _
  rw [h, Style.hides.eq_def]
  split
  · rename_i heq
    cases heq
  · rfl

theorem after_add (m n : Nat) (o : Outlook) : o.after (m + n) = (o.after m).after n := by
  induction m generalizing o with
  | zero => rw [Nat.zero_add]; rfl
  | succ m ih => rw [Nat.succ_add]; exact ih o.next.2

end Outlook

/-! ### Scripts -/

namespace Lexer

/-- The lexer of a script, called again and again, comes to the body of a heredoc in which an escape
takes the line feed in front of the line that closes it. -/
def HidesClosingLine (source : List Byte) : Prop :=
  ∃ n tokens l heredoc, calls next n (ofBytes source) = .ok (tokens, l)
    ∧ l.stack.top.region = .heredocBody heredoc
    ∧ (heredoc.style source).hides (l.tape.isLineStart l.tape.pos) l.tape.rest

variable {source : List Byte}

/-- Whether a closing line is hidden can be told from the outlooks along the way. -/
theorem hidesClosingLine_iff :
    HidesClosingLine source ↔ ∃ n, ((Outlook.start source).after n).clear = false := by
  have hclear : ∀ {n tokens} {l : Lexer}, calls next n (ofBytes source) = .ok (tokens, l) →
      (((Outlook.start source).after n).clear = false
        ↔ ∃ heredoc, l.stack.top.region = .heredocBody heredoc
          ∧ (heredoc.style source).hides (l.tape.isLineStart l.tape.pos) l.tape.rest) := by
    intro n tokens l hcalls
    rw [← outlook_ofBytes, ← (sound_ofBytes source).outlook_of_calls hcalls]
    show (match l.stack.top.region.scene source with
      | .heredocBody style => !style.hides (l.tape.isLineStart l.tape.pos) l.tape.rest
      | _ => true) = false ↔ _
    cases l.stack.top.region with
    | heredocBody heredoc => simp [Region.scene]
    | statements | quoted close | interpolation braces | heredocLine heredoc => simp [Region.scene]
  constructor
  · rintro ⟨n, tokens, l, heredoc, hcalls, hhides⟩
    exact ⟨n, (hclear hcalls).mpr ⟨heredoc, hhides⟩⟩
  · rintro ⟨n, hn⟩
    obtain ⟨tokens, l, hcalls, -⟩ := exists_calls source n
    obtain ⟨heredoc, hhides⟩ := (hclear hcalls).mp hn
    exact ⟨n, tokens, l, heredoc, hcalls, hhides⟩

/-- No closing line is hidden, if none is before the end is come to. -/
theorem not_hidesClosingLine (n : Nat) (hend : ((Outlook.start source).after n).rest = [])
    (hclear : (List.range n).all fun k => ((Outlook.start source).after k).clear) :
    ¬ HidesClosingLine source := by
  rw [hidesClosingLine_iff]
  rintro ⟨k, hk⟩
  by_cases hlt : k < n
  · rw [List.all_eq_true.mp hclear k (List.mem_range.mpr hlt)] at hk
    cases hk
  · rw [← Nat.add_sub_of_le (Nat.le_of_not_lt hlt), Outlook.after_add,
      Outlook.clear_of_nil (Outlook.rest_after_of_nil hend _)] at hk
    cases hk

end Lexer

/-- **Line ends do not change the kinds of tokens.** -/
theorem line_ends_keep_kinds {source : List Byte} (hreturn : 0x0D ∉ source)
    (hclear : ¬ Lexer.HidesClosingLine source) :
    ∃ a b, lexBytes source = .ok a ∧ lexBytes (withReturns source) = .ok b ∧ b.kinds = a.kinds := by
  have hinline : (Outlook.start source).InLine :=
    ⟨hreturn, trivial, fun layer hmem => absurd hmem List.not_mem_nil⟩
  have hclear' : ∀ n, ((Outlook.start source).after n).clear := by
    intro n
    rw [← Bool.not_eq_false]
    exact fun hn => hclear (Lexer.hidesClosingLine_iff.mpr ⟨n, hn⟩)
  have hreturned : (Outlook.start source).Returned (.start (withReturns source)) := .same
  obtain ⟨a, b, n, ha, hb, hashows, hbshows⟩ := lexBytes_of_kinds fun n =>
    hreturned.findings hinline hclear' n 0 0
  refine ⟨a, b, ha, hb, ?_⟩
  rw [hashows.kinds, hbshows.kinds]
  exact hreturned.findings hinline hclear' n 0 0

/-- In a script with lines that are joined, in statements and in the body of a heredoc, a return may
stand in front of every line feed. -/
theorem line_ends_keep_kinds_of_joined_lines :
    let source := Byte.ofString "a + \\\nb <<A # c\nx\\\ny\nA\n"
    ∃ a b, lexBytes source = .ok a ∧ lexBytes (withReturns source) = .ok b
      ∧ b.kinds = a.kinds := by
  intro source
  have hclear : ¬ Lexer.HidesClosingLine source :=
    Lexer.not_hidesClosingLine 8 (by decide +kernel) (by decide +kernel)
  exact line_ends_keep_kinds (by decide) hclear

/-- **A return in front of a line feed may close a heredoc.** The second line of this script ends
with a backslash. Its line feed is elided with the backslash, and the third line goes on with the
text; with a return, the return is elided, and the third line ends the heredoc. -/
theorem return_may_close_heredoc :
    ¬ ∀ source : List Byte, 0x0D ∉ source →
      ∃ a b, lexBytes source = .ok a ∧ lexBytes (withReturns source) = .ok b
        ∧ b.kinds = a.kinds := by
  intro h
  obtain ⟨a, b, ha, hb, hkinds⟩ := h (Byte.ofString "<<A\nx\\\nA\nA\n") (by decide)
  have hdiffer : (lexBytes (withReturns (Byte.ofString "<<A\nx\\\nA\nA\n"))).toOption.map
        (·.kinds)
      ≠ (lexBytes (Byte.ofString "<<A\nx\\\nA\nA\n")).toOption.map (·.kinds) := by
    decide +kernel
  rw [ha, hb] at hdiffer
  exact hdiffer (congrArg some hkinds)

end ScriptLexer
