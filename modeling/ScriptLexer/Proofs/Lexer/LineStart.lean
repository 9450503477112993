import ScriptLexer.Proofs.Lexer.LineEnd

/-!
# Where lines begin

A block comment is layout at the start of a line only. So whether layout stands between two tokens
depends on whether a line begins behind the first one, and that is so if the last byte of the token
is a line feed. Among the tokens of statements only line ends have one there: a name, an operator or
an opener ends with its line at the latest, a string ends with a byte of punctuation, and a heredoc
with its identifier. What else may reach over line ends is interrupted or broken off, and in the one
case text follows, in the other nothing does.

Which bytes close the open constructs is not for one call to say. It is an invariant of outlooks,
`Outlook.EndsInLine`, that they do not end with a line feed.

## Main definitions

* `Outlook.EndsInLine` — what closes the open constructs ends in a line

## Main results

* `Layer.endsInLine_read` — what begins with a byte ends inside of a line
* `Outlook.EndsInLine.lineStart_next` — behind any other token of statements no line begins
-/

namespace ScriptLexer

variable {x y bytes rest : List Byte} {lineStart : Bool} {b : Byte}

/-! ### Bytes that do not end a line -/

/-- Whether the line goes on behind some bytes: there are bytes, and the last is no line feed. -/
def Line.GoesOn (bytes : List Byte) : Prop :=
  ∃ b, bytes.getLast? = some b ∧ b ≠ Byte.newline

namespace Line.GoesOn

theorem append (x : List Byte) (h : GoesOn y) : GoesOn (x ++ y) := by
  obtain ⟨b, hlast, hb⟩ := h
  exact ⟨b, by rw [List.getLast?_append, hlast]; rfl, hb⟩

theorem of_notMem (hne : bytes ≠ []) (h : Byte.newline ∉ bytes) : GoesOn bytes := by
  refine ⟨bytes.getLast hne, List.getLast?_eq_some_getLast hne, fun hb => h ?_⟩
  rw [← hb]
  exact List.getLast_mem hne

theorem of_take {n : Nat} (hpos : 0 < n) (hn : n ≤ bytes.length)
    (h : Byte.newline ∉ bytes.take n) : GoesOn (bytes.take n) := by
  refine of_notMem (List.ne_nil_of_length_pos ?_) h
  rwa [List.length_take, Nat.min_eq_left hn]

theorem startsAfter_eq (h : GoesOn bytes) (lineStart : Bool) :
    Line.startsAfter lineStart bytes = false := by
  obtain ⟨b, hlast, hb⟩ := h
  rw [Line.startsAfter, hlast]
  exact beq_eq_false_iff_ne.mpr hb

end Line.GoesOn

/-! ### What closes a text -/

/-- What closes the text has a byte and no line feed. -/
def Style.EndsInLine : Style → Prop
  | verbatim close | decoded close => close ≠ Byte.newline
  | verbatimLines close | decodedLines close =>
    close.identifier ≠ [] ∧ Byte.newline ∉ close.identifier

namespace Style

variable {style : Style} {n : Nat}

theorem EndsInLine.closes (h : style.EndsInLine) : style.Closes := by
  cases style with
  | verbatim _ | decoded _ => trivial
  | verbatimLines _ | decodedLines _ => exact h.1

/-- The line that ends a heredoc is taken up to its identifier. -/
theorem goesOn_terminator {line : TerminatorLine}
    (hline : line.identifier ≠ [] ∧ Byte.newline ∉ line.identifier)
    (h : line.read? rest = some n) : Line.GoesOn (rest.take n) := by
  simp only [TerminatorLine.read?] at h
  generalize (if line.indented then (rest.takeWhile Byte.isBlank).length else 0) = indent at h
  split at h
  · rename_i hfound
    cases h
    obtain ⟨tail, htail, -⟩ := (Option.any_eq_true ..).mp hfound
    have hrest := Line.eq_append_of_behind? htail
    rw [List.take_add, hrest, List.take_left]
    exact .append _ (.of_notMem hline.1 hline.2)
  · cases h

/-- What closes a text does not end a line. -/
theorem EndsInLine.goesOn_close (hstyle : style.EndsInLine)
    (h : style.close? lineStart rest = some n) : Line.GoesOn (rest.take n) := by
  have hbyte : ∀ close : Byte, close ≠ Byte.newline →
      (if rest.head? = some close then some 1 else none) = some n →
      Line.GoesOn (rest.take n) := by
    intro close hclose h
    split at h
    · rename_i hhead
      cases h
      obtain ⟨tail, rfl⟩ := List.head?_eq_some_iff.mp hhead
      exact ⟨close, rfl, hclose⟩
    · cases h
  have hlines : ∀ close : TerminatorLine,
      close.identifier ≠ [] ∧ Byte.newline ∉ close.identifier →
      (if lineStart then close.read? rest else none) = some n → Line.GoesOn (rest.take n) := by
    intro close hclose h
    split at h
    · exact goesOn_terminator hclose h
    · cases h
  cases style with
  | verbatim close => exact hbyte close hstyle h
  | decoded close => exact hbyte close hstyle h
  | verbatimLines close => exact hlines close hstyle h
  | decodedLines close => exact hlines close hstyle h

end Style

/-- What closes the construct ends in a line. -/
def Scene.EndsInLine : Scene → Prop
  | statements | interpolation _ => True
  | quoted close => close ≠ Byte.newline
  | heredocLine style | heredocBody style => style.EndsInLine

theorem Scene.EndsInLine.countBrace (kind : Kind) {scene : Scene} (h : scene.EndsInLine) :
    (scene.countBrace kind).EndsInLine := by
  cases scene with
  | interpolation braces =>
    rw [Scene.countBrace.eq_def]
    dsimp only
    split <;> trivial
  | statements | quoted close | heredocLine style | heredocBody style => exact h

/-- A construct that is opened ends in a line. -/
def Turn.EndsInLine : Turn → Prop
  | stay | pop => True
  | push scene | swap scene => scene.EndsInLine

/-- A heredoc ends in a line, since its identifier stands on one. -/
theorem HeredocOpener.endsInLine_style {opener : HeredocOpener} (hsize : 0 < opener.size)
    (hle : 2 + opener.offset + opener.size ≤ bytes.length)
    (hline : Byte.newline ∉ (bytes.drop (2 + opener.offset)).take opener.size) :
    (opener.style bytes).EndsInLine := by
  have hne : (bytes.drop (2 + opener.offset)).take opener.size ≠ [] := by
    refine List.ne_nil_of_length_pos ?_
    rw [List.length_take, List.length_drop]
    omega
  rw [style, TerminatorLine.style]
  split
  · exact ⟨hne, hline⟩
  · exact ⟨hne, hline⟩

/-! ### What begins with a byte -/

namespace Outcome

/-- A token that is no line end ends inside of a line, unless text follows it or nothing does; and
so will what it opens. -/
structure EndsInLine (bytes : List Byte) (r : Outcome) : Prop where
  last : r.kind = .newLine ∨ r.kind.isPart ∨ bytes.length ≤ r.length
    ∨ Line.GoesOn (bytes.take r.length)
  opened : r.turn.EndsInLine

/-- A text that is closed ends with what closes it. -/
theorem endsInLine_text {style : Style} {ending : Stop → Ending} {opener : Nat}
    (hstyle : style.EndsInLine) (hopener : opener ≤ bytes.length)
    (hpart : (ending .interpolation).kind.isPart ∨ style.decodes = false)
    (hopened : ∀ stop, ((ending stop).shift.turn []).EndsInLine) :
    (text style lineStart ending opener bytes).EndsInLine bytes := by
  refine ⟨?_, hopened _⟩
  let p := style.passage lineStart (bytes.drop opener)
  have hp : p = style.passage lineStart (bytes.drop opener) := rfl
  rcases Style.passage_stop_cases style lineStart (bytes.drop opener) with
    ⟨lineStart', hstops⟩ | ⟨-, hall⟩
  · rw [← hp] at hstops
    rcases Style.stop?_cases hstops with ⟨n, hclosed, hclose⟩ | ⟨hstop, hdecodes, -⟩
    · refine .inr (.inr (.inr ?_))
      show Line.GoesOn (bytes.take (opener + (p.length + p.stop.length)))
      rw [hclosed, Stop.length, List.take_add, List.take_add]
      exact ((hstyle.goesOn_close hclose).append _).append _
    · refine .inr (.inl ?_)
      show (ending p.stop).kind.isPart
      rw [hstop]
      exact hpart.resolve_right fun hfalse => Bool.false_ne_true (hfalse.symm.trans hdecodes)
  · refine .inr (.inr (.inl ?_))
    rw [← hp, List.length_drop] at hall
    show bytes.length ≤ opener + (p.length + p.stop.length)
    omega

theorem endsInLine_quoted {close : Byte} (hclose : close ≠ Byte.newline) (resumed : Bool)
    {opener : Nat} (hopener : opener ≤ bytes.length) :
    (text (.decoded close) false (.quoted close resumed) opener bytes).EndsInLine bytes := by
  refine endsInLine_text hclose hopener (.inl rfl) fun stop => ?_
  cases stop with
  | interpolation =>
    cases resumed with
    | true => trivial
    | false => exact hclose
  | closed length => cases resumed <;> trivial
  | endOfInput => trivial

/-- A token of statements ends inside of a line. -/
theorem endsInLine_statement (lookback : Lookback) (lineStart : Bool) (b : Byte)
    (rest : List Byte) :
    (ofLexeme (b :: rest) (Lexeme.read lookback lineStart b rest)).EndsInLine (b :: rest) := by
  by_cases hb : b = Byte.newline
  · subst hb
    exact ⟨.inl rfl, trivial⟩
  cases hopen : BlockComment.opensAt lineStart (b :: rest) with
  | true =>
    obtain rfl := BlockComment.head_of_opensAt hopen
    rw [Lexeme.read_of_opensAt hopen]
    exact ⟨.inr (.inr (.inl (Nat.le_refl _))), trivial⟩
  | false =>
    have hform := Lexeme.form_read lookback lineStart b rest
    have hfits := Lexeme.fits_read lookback rest lineStart b
    have hplain := Lexeme.plain_read lookback rest lineStart b
    have hline := Lexeme.newline_notMem_extent lookback lineStart hb hopen
    generalize Lexeme.read lookback lineStart b rest = lexeme at hform hfits hplain hline
    cases lexeme with
    | bare kind length | spelled kind length =>
      exact ⟨.inr (.inr (.inr (.of_take hfits.2.1 hfits.2.2 hline))), trivial⟩
    | malformed cause length shown =>
      exact ⟨.inr (.inr (.inr (.of_take hfits.1 hfits.2 hline))), trivial⟩
    | heredoc opener =>
      obtain ⟨hsize, hinside, hle⟩ := hfits
      exact ⟨.inr (.inr (.inr (.of_take (Nat.add_pos_left Nat.two_pos _) hle hline))),
        opener.endsInLine_style hsize (by rw [List.length_cons]; omega) hplain⟩
    | quoted isVerbatim close opener =>
      have hclose : close ≠ Byte.newline := hform.close.1
      cases isVerbatim with
      | true =>
        exact endsInLine_text hclose hfits.2 (.inr rfl) fun stop => by cases stop <;> trivial
      | false => exact endsInLine_quoted hclose false hfits.2

theorem endsInLine_introducer? {r : Outcome} (h : introducer? bytes = some r) :
    r.EndsInLine bytes := by
  have hgoesOn : ∀ {i : Introducer}, Introducer.read? bytes = some i → 0 < i.extent →
      Line.GoesOn (bytes.take i.extent) := fun hread hpos =>
    .of_take hpos (Introducer.extent_le hread) (Introducer.newline_notMem_extent hread)
  rw [introducer?] at h
  split at h
  · cases h
  · rename_i hread
    cases h
    exact ⟨.inr (.inr (.inr (hgoesOn hread Nat.two_pos))), trivial⟩
  · rename_i kind length hread
    cases h
    exact ⟨.inr (.inr (.inr (hgoesOn hread (Nat.add_pos_left Nat.one_pos _)))), trivial⟩

/-- A piece of text ends inside of a line, and so does an introducer in front of it. -/
theorem EndsInLine.getD_introducer? {segment : Outcome} (h : segment.EndsInLine bytes) :
    ((introducer? bytes).getD segment).EndsInLine bytes := by
  cases hintroducer : introducer? bytes with
  | none => exact h
  | some r => exact endsInLine_introducer? hintroducer

end Outcome

/-- **What begins with a byte ends inside of a line,** in every construct that does. -/
theorem Layer.endsInLine_read {layer : Layer} (hscene : layer.scene.EndsInLine) (lineStart : Bool)
    (b : Byte) (rest : List Byte) :
    (layer.read lineStart b rest).EndsInLine (b :: rest) := by
  have hstatement := Outcome.endsInLine_statement layer.lookback lineStart b rest
  obtain ⟨scene, lookback⟩ := layer
  cases scene with
  | statements => exact hstatement
  | quoted close =>
    exact (Outcome.endsInLine_quoted hscene true (Nat.zero_le _)).getD_introducer?
  | interpolation braces =>
    simp only [read]
    split
    · rename_i hclose
      refine ⟨.inr (.inr (.inr ⟨b, rfl, ?_⟩)), trivial⟩
      rw [hclose.2]
      decide
    · exact hstatement
  | heredocLine style =>
    simp only [read]
    split
    · exact ⟨.inl rfl, hscene⟩
    · exact hstatement
  | heredocBody style =>
    have hsegment : (Outcome.text style lineStart .body 0 (b :: rest)).EndsInLine (b :: rest) :=
      Outcome.endsInLine_text hscene (Nat.zero_le _) (.inl rfl) fun stop => by
        cases stop <;> trivial
    simp only [read]
    split
    · exact hsegment.getD_introducer?
    · exact hsegment

/-! ### Calls -/

namespace Outlook

variable {o : Outlook}

/-- What closes the open constructs ends in a line. -/
structure EndsInLine (o : Outlook) : Prop where
  top : o.top.scene.EndsInLine
  below : ∀ layer ∈ o.below, layer.scene.EndsInLine

theorem EndsInLine.commit (h : o.EndsInLine) {turn : Turn} (hturn : turn.EndsInLine)
    (kind : Kind) : (o.commit turn kind).EndsInLine := by
  have htop : (o.top.record kind).scene.EndsInLine := h.top.countBrace kind
  cases turn with
  | stay => exact ⟨htop, h.below⟩
  | push scene => exact ⟨hturn, List.forall_mem_cons.mpr ⟨htop, h.below⟩⟩
  | swap scene => exact ⟨hturn.countBrace kind, h.below⟩
  | pop =>
    obtain ⟨rest, lineStart, top, below⟩ := o
    cases below with
    | nil => exact ⟨htop, h.below⟩
    | cons layer below =>
      obtain ⟨hlayer, hbelow⟩ := List.forall_mem_cons.mp h.below
      exact ⟨hlayer.countBrace kind, hbelow⟩

theorem below_settle (o : Outlook) : o.settle.below = o.below := by
  have hskip : o.skipLayout.below = o.below := by
    induction o using skipLayout.induct with
    | case1 o hnone => rw [skipLayout_of_none hnone]
    | case2 o g hg ih =>
      rw [skipLayout_of_some hg]
      exact ih
  rw [settle]
  split
  · rw [honourEndMarker]
    split
    · exact hskip
    · exact hskip
  · rfl

theorem EndsInLine.settle (h : o.EndsInLine) : o.settle.EndsInLine :=
  ⟨o.scene_settle ▸ h.top, o.below_settle ▸ h.below⟩

/-- **A call keeps what closes the open constructs in a line.** -/
theorem EndsInLine.next (h : o.EndsInLine) : o.next.2.EndsInLine := by
  have hsettled := h.settle
  rw [Outlook.next]
  cases hrest : o.settle.rest with
  | nil => rwa [step_of_nil hrest]
  | cons b rest =>
    rw [step_of_cons hrest]
    have hread := Layer.endsInLine_read hsettled.top o.settle.lineStart b rest
    exact EndsInLine.commit (o := o.settle.advanceBy _) ⟨hsettled.top, hsettled.below⟩
      hread.opened _

theorem lineStart_commit (turn : Turn) (kind : Kind) (o : Outlook) :
    (o.commit turn kind).lineStart = o.lineStart := by
  cases turn with
  | stay | push scene | swap scene => rfl
  | pop =>
    rw [Outlook.commit]
    split <;> rfl

/-- **Behind a token no line begins,** unless it is the end of one, is followed by text, or is the
last. -/
theorem EndsInLine.lineStart_next (h : o.EndsInLine) (hkind : o.next.1.kind ≠ .newLine)
    (hpart : o.next.1.kind.isPart = false) (hrest : o.next.2.rest ≠ []) :
    o.next.2.lineStart = false := by
  rw [Outlook.next] at hkind hpart hrest ⊢
  cases hbytes : o.settle.rest with
  | nil =>
    rw [step_of_nil hbytes] at hrest
    exact absurd hbytes hrest
  | cons b bytes =>
    rw [step_of_cons hbytes] at hkind hpart hrest ⊢
    have hread := Layer.endsInLine_read h.settle.top o.settle.lineStart b bytes
    generalize o.settle.top.read o.settle.lineStart b bytes = r at hkind hpart hrest hread ⊢
    simp only [rest_commit, lineStart_commit, advanceBy, hbytes] at hrest ⊢
    rcases hread.last with hline | hsome | hall | hgoesOn
    · exact absurd hline hkind
    · rw [hpart] at hsome
      cases hsome
    · exact absurd (List.drop_eq_nil_of_le hall) hrest
    · exact hgoesOn.startsAfter_eq _

end Outlook

end ScriptLexer
