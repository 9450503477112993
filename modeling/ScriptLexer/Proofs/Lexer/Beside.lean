import ScriptLexer.Proofs.Lexer.Outlook
import ScriptLexer.Proofs.Lexer.Report
import ScriptLexer.Proofs.Text.Spacing

/-!
# Outlooks side by side

Two outlooks stand side by side if they have the same bytes ahead up to some place, behind which
each goes on in its own way, and nothing else tells them apart. If what follows begins with a space
in both, a call that ends in front of the space finds the same in both, and leaves outlooks that
stand side by side again. There is one exception, which is that of text: with other spaces the body
of a heredoc may be closed by a line that reaches over the place.

## Main definitions

* `Outlook.Beside` — two outlooks that differ behind the first bytes ahead

## Main results

* `Layer.read_spaced` — what is read that ends in front of a space
* `Outlook.Beside.next` — a call that ends in front of a space
-/

namespace ScriptLexer

variable (front : List Byte) {x y : List Byte}

/-! ### Outcomes -/

namespace Outcome

theorem text_spaced (style : Style) (lineStart : Bool) (ending : Stop → Ending) {opener : Nat}
    (hx : Spaced x) (hy : Spaced y)
    (h : (text style lineStart ending opener (front ++ x)).length ≤ front.length) :
    opener < front.length
      ∧ (text style lineStart ending opener (front ++ y)
          = text style lineStart ending opener (front ++ x)
        ∨ style.endsWithLine
          ∧ (style.passage lineStart ((front ++ y).drop opener)).Overruns
              (front.length - opener)) := by
  have hopener : opener ≤ front.length := Nat.le_trans (Nat.le_add_right _ _) h
  simp only [text, List.drop_append_of_le_length hopener] at h ⊢
  have hends : (style.passage lineStart (front.drop opener ++ x)).length
      + (style.passage lineStart (front.drop opener ++ x)).stop.length
      ≤ (front.drop opener).length := by
    rw [List.length_drop]
    omega
  obtain ⟨hbehind, hpassage⟩ := style.passage_spaced lineStart hx hy hends
  have hpos := List.length_pos_iff.mpr hbehind
  rw [List.length_drop] at hpos hpassage
  refine ⟨by omega, hpassage.imp_left fun hsame => ?_⟩
  rw [hsame]

/-- Quoted text that ends in front of the space is the same whatever follows. -/
theorem text_quoted_spaced {style : Style} {lineStart : Bool} {ending : Stop → Ending}
    {opener : Nat} (hstyle : style.endsWithLine = false) (hx : Spaced x) (hy : Spaced y)
    (h : (text style lineStart ending opener (front ++ x)).length ≤ front.length) :
    text style lineStart ending opener (front ++ y)
      = text style lineStart ending opener (front ++ x) := by
  refine (text_spaced front style lineStart ending hx hy h).2.resolve_right ?_
  rintro ⟨hlines, -⟩
  rw [hstyle] at hlines
  cases hlines

theorem extent_le_length (bytes : List Byte) (lexeme : Lexeme) :
    lexeme.extent ≤ (ofLexeme bytes lexeme).length := by
  cases lexeme with
  | bare kind length | spelled kind length | heredoc opener | malformed cause length shown =>
    exact Nat.le_refl _
  | quoted isVerbatim close opener => cases isVerbatim <;> exact Nat.le_add_right _ _

/-- What a lexeme describes that ends in front of the space is the same whatever follows. -/
theorem ofLexeme_spaced {lexeme : Lexeme} {n : Nat} (hx : Spaced x) (hy : Spaced y)
    (hfits : lexeme.Fits n) (h : (ofLexeme (front ++ x) lexeme).length ≤ front.length) :
    ofLexeme (front ++ y) lexeme = ofLexeme (front ++ x) lexeme := by
  cases lexeme with
  | bare kind length => rfl
  | spelled kind length =>
    simp only [ofLexeme] at h ⊢
    rw [List.take_append_of_le_length h, List.take_append_of_le_length h]
  | quoted isVerbatim close opener =>
    cases isVerbatim with
    | true => exact text_quoted_spaced front rfl hx hy h
    | false => exact text_quoted_spaced front rfl hx hy h
  | heredoc opener =>
    have hinside := hfits.2.1
    simp only [ofLexeme] at h ⊢
    simp only [HeredocOpener.style]
    have hidentifier : ∀ z : List Byte,
        ((front ++ z).drop (2 + opener.offset)).take opener.size
          = (front.drop (2 + opener.offset)).take opener.size := by
      intro z
      rw [List.drop_append_of_le_length (by omega), List.take_append_of_le_length]
      rw [List.length_drop]
      omega
    rw [hidentifier, hidentifier, List.take_append_of_le_length h,
      List.take_append_of_le_length h]
  | malformed cause length shown =>
    simp only [ofLexeme] at h ⊢
    rw [List.take_append_of_le_length h, List.take_append_of_le_length h]

/-- A segment of a heredoc's body that ends in front of the space is the same whatever follows,
unless the body is then closed by a line that reaches over the space. -/
theorem text_body_spaced (style : Style) (lineStart : Bool) (hx : Spaced x) (hy : Spaced y)
    (h : (text style lineStart .body 0 (front ++ x)).length ≤ front.length) :
    text style lineStart .body 0 (front ++ y) = text style lineStart .body 0 (front ++ x)
      ∨ (text style lineStart .body 0 (front ++ y)).kind = .heredocEnd
        ∧ front.length < (text style lineStart .body 0 (front ++ y)).length := by
  refine (text_spaced front style lineStart .body hx hy h).2.imp_right ?_
  rintro ⟨-, ⟨k, hclosed⟩, hfar⟩
  refine ⟨?_, ?_⟩
  · rw [List.drop_zero] at hclosed
    simp only [text, List.drop_zero, hclosed]
    rfl
  · simpa [text] using hfar

/-- An introducer that ends in front of the space is the same whatever follows. -/
theorem introducer?_spaced (hx : Spaced x) (hy : Spaced y)
    (h : ∀ o, introducer? (front ++ x) = some o → o.length ≤ front.length) :
    introducer? (front ++ y) = introducer? (front ++ x) := by
  rw [introducer?] at h
  rw [introducer?, introducer?, ← Introducer.read?_congr (hx.sameWord front hy)]
  split
  · rfl
  · rfl
  · rename_i kind length hread
    rw [hread] at h
    have hle : 1 + length ≤ front.length := h _ rfl
    have hname : ∀ z : List Byte,
        ((front ++ z).drop 1).take length = (front.drop 1).take length := by
      intro z
      rw [List.drop_append_of_le_length (by omega), List.take_append_of_le_length]
      rw [List.length_drop]
      omega
    rw [hname, hname]

/-- No introducer begins with a space. -/
theorem introducer?_of_spaced (hx : Spaced x) : introducer? x = none := by
  cases hx <;> rfl

/-- What is wrong is found at the beginning of a text, or at a byte of it. -/
theorem fault_text {style : Style} {lineStart : Bool} {ending : Stop → Ending} {opener : Nat}
    {bytes : List Byte} {d : Diagnostic}
    (h : (text style lineStart ending opener bytes).fault = some d) :
    d.pos = 0 ∨ d.pos < (text style lineStart ending opener bytes).length := by
  simp only [text] at h ⊢
  cases hfault : (style.passage lineStart (bytes.drop opener)).fault with
  | some f =>
    rw [hfault] at h
    cases h
    have hlt := (Style.isOfEscape_of_fault hfault).2
    simp only [Diagnostic.shift]
    exact .inr (by omega)
  | none =>
    rw [hfault, Option.map_none, Option.none_or] at h
    obtain ⟨cause, -, rfl⟩ := Option.map_eq_some_iff.mp h
    exact .inl rfl

theorem fault_ofLexeme {bytes : List Byte} {lexeme : Lexeme} {d : Diagnostic}
    (h : (ofLexeme bytes lexeme).fault = some d) :
    d.pos = 0 ∨ d.pos < (ofLexeme bytes lexeme).length := by
  cases lexeme with
  | bare kind length | spelled kind length | heredoc opener => cases h
  | quoted isVerbatim close opener => cases isVerbatim <;> exact fault_text h
  | malformed cause length shown =>
    cases h
    exact .inl rfl

theorem fault_introducer? {bytes : List Byte} {o : Outcome} (h : introducer? bytes = some o) :
    o.fault = none := by
  rw [introducer?] at h
  split at h
  · cases h
  · cases h
    rfl
  · cases h
    rfl

end Outcome

/-! ### Layers -/

namespace Layer

variable {lineStart : Bool} {b : Byte} {rest : List Byte}

/-- Text that begins with a space has a byte. -/
theorem length_read_pos {layer : Layer} (hscene : layer.scene.holdsStatements = false)
    (hx : Spaced (b :: rest)) : 0 < (layer.read lineStart b rest).length := by
  have htext : ∀ (style : Style) (lineStart : Bool) (ending : Stop → Ending),
      0 < (Outcome.text style lineStart ending 0 (b :: rest)).length := by
    intro style lineStart ending
    refine Nat.pos_of_ne_zero fun hzero => ?_
    have hends := Outcome.text_spaced [] style lineStart ending hx hx (Nat.le_of_eq hzero)
    exact absurd hends.1 (Nat.lt_irrefl 0)
  obtain ⟨scene, lookback⟩ := layer
  cases scene with
  | statements | interpolation braces | heredocLine style => cases hscene
  | quoted close =>
    simp only [read, Outcome.introducer?_of_spaced hx]
    exact htext _ _ _
  | heredocBody style =>
    simp only [read, Outcome.introducer?_of_spaced hx]
    split
    · exact htext _ _ _
    · exact htext _ _ _

/-- A block comment that is not closed takes all bytes. -/
theorem length_read_of_opensAt {layer : Layer} (hscene : layer.scene.holdsStatements)
    (hopen : BlockComment.opensAt lineStart (b :: rest)) :
    (layer.read lineStart b rest).length = rest.length + 1 := by
  obtain rfl := BlockComment.head_of_opensAt hopen
  obtain ⟨scene, lookback⟩ := layer
  cases scene with
  | statements =>
    simp only [read, Lexeme.read_of_opensAt hopen]
    rfl
  | interpolation braces =>
    have hne : (0x3D : Byte) ≠ Byte.ofChar '\x7d' := by decide
    simp only [read, Lexeme.read_of_opensAt hopen, hne, and_false, if_false]
    rfl
  | heredocLine style =>
    have hne : (0x3D : Byte) ≠ Byte.newline := by decide
    simp only [read, Lexeme.read_of_opensAt hopen, hne, if_false]
    rfl
  | quoted close | heredocBody style => cases hscene

/-- **What is read that ends in front of a space** is the same whatever follows, unless it is then
the end of a heredoc that reaches over the space. -/
theorem read_spaced (layer : Layer) (lineStart : Bool) (hx : Spaced x) (hy : Spaced y)
    (h : (layer.read lineStart b (front ++ x)).length ≤ front.length + 1) :
    layer.read lineStart b (front ++ y) = layer.read lineStart b (front ++ x)
      ∨ (layer.read lineStart b (front ++ y)).kind = .heredocEnd
        ∧ front.length + 1 < (layer.read lineStart b (front ++ y)).length := by
  have hstatement : ∀ lookback,
      (Outcome.ofLexeme (b :: (front ++ x))
        (Lexeme.read lookback lineStart b (front ++ x))).length ≤ front.length + 1 →
      Outcome.ofLexeme (b :: (front ++ y)) (Lexeme.read lookback lineStart b (front ++ y))
        = Outcome.ofLexeme (b :: (front ++ x)) (Lexeme.read lookback lineStart b (front ++ x)) := by
    intro lookback h
    rw [Lexeme.read_spaced lookback lineStart hx hy (Nat.le_trans (Outcome.extent_le_length _ _) h)]
    exact Outcome.ofLexeme_spaced (b :: front) hx hy (Lexeme.fits_read ..) h
  have hintroducer : (∀ o, Outcome.introducer? (b :: (front ++ x)) = some o →
      o.length ≤ front.length + 1) →
      Outcome.introducer? (b :: (front ++ y)) = Outcome.introducer? (b :: (front ++ x)) :=
    Outcome.introducer?_spaced (b :: front) hx hy
  obtain ⟨scene, lookback⟩ := layer
  cases scene with
  | statements => exact .inl (hstatement lookback h)
  | quoted close =>
    simp only [read] at h ⊢
    cases ho : Outcome.introducer? (b :: (front ++ x)) with
    | some o =>
      rw [ho] at h hintroducer
      refine .inl (congrArg (Option.getD · _) (hintroducer fun o' ho' => ?_))
      cases ho'
      exact h
    | none =>
      rw [ho] at h hintroducer
      rw [hintroducer fun o' ho' => by cases ho']
      exact .inl (Outcome.text_quoted_spaced (b :: front) rfl hx hy h)
  | interpolation braces =>
    simp only [read] at h ⊢
    split at h
    · rename_i hclose
      exact .inl (by rw [if_pos hclose, if_pos hclose])
    · rename_i hopen
      rw [if_neg hopen, if_neg hopen]
      exact .inl (hstatement lookback h)
  | heredocLine style =>
    simp only [read] at h ⊢
    split at h
    · rename_i hclose
      exact .inl (by rw [if_pos hclose, if_pos hclose])
    · rename_i hopen
      rw [if_neg hopen, if_neg hopen]
      exact .inl (hstatement lookback h)
  | heredocBody style =>
    have hsegment := Outcome.text_body_spaced (b :: front) style lineStart hx hy
    simp only [read] at h ⊢
    split at h
    · rename_i hdecodes
      rw [if_pos hdecodes, if_pos hdecodes]
      cases ho : Outcome.introducer? (b :: (front ++ x)) with
      | some o =>
        rw [ho] at h hintroducer
        rw [hintroducer fun o' ho' => by cases ho'; exact h]
        exact .inl rfl
      | none =>
        rw [ho] at h hintroducer
        rw [hintroducer fun o' ho' => by cases ho']
        exact hsegment h
    · rename_i hverbatim
      rw [if_neg hverbatim, if_neg hverbatim]
      exact hsegment h

/-- **What is wrong is found at the beginning of a token, or at a byte of it.** -/
theorem fault_read {layer : Layer} {d : Diagnostic}
    (h : (layer.read lineStart b rest).fault = some d) :
    d.pos = 0 ∨ d.pos < (layer.read lineStart b rest).length := by
  have hintroduced : ∀ {segment : Outcome},
      (segment.fault = some d → d.pos = 0 ∨ d.pos < segment.length) →
      ((Outcome.introducer? (b :: rest)).getD segment).fault = some d →
      d.pos = 0 ∨ d.pos < ((Outcome.introducer? (b :: rest)).getD segment).length := by
    intro segment hsegment h
    cases ho : Outcome.introducer? (b :: rest) with
    | some o =>
      rw [ho, Option.getD_some, Outcome.fault_introducer? ho] at h
      cases h
    | none =>
      rw [ho] at h
      exact hsegment h
  obtain ⟨scene, lookback⟩ := layer
  cases scene with
  | statements => exact Outcome.fault_ofLexeme h
  | quoted close => exact hintroduced Outcome.fault_text h
  | interpolation braces =>
    simp only [read] at h ⊢
    split at h
    · cases h
    · rename_i hopen
      rw [if_neg hopen]
      exact Outcome.fault_ofLexeme h
  | heredocLine style =>
    simp only [read] at h ⊢
    split at h
    · cases h
    · rename_i hopen
      rw [if_neg hopen]
      exact Outcome.fault_ofLexeme h
  | heredocBody style =>
    simp only [read] at h ⊢
    split at h
    · rename_i hdecodes
      rw [if_pos hdecodes]
      exact hintroduced Outcome.fault_text h
    · rename_i hverbatim
      rw [if_neg hverbatim]
      exact Outcome.fault_text h

end Layer

/-! ### Outlooks -/

namespace Outlook

variable {o o' o₁ : Outlook}

/-- Skipping layout ahead of an outlook comes to another outlook. -/
inductive SkipsTo : Outlook → Outlook → Prop
  | here (o : Outlook) : SkipsTo o o
  | behind {o o₁ : Outlook} {g : Gap} (hg : Gap.read? o.lineStart o.rest = some g)
      (h : SkipsTo (o.pass g) o₁) : SkipsTo o o₁

theorem skipsTo_skipLayout (o : Outlook) : o.SkipsTo o.skipLayout := by
  induction o using skipLayout.induct with
  | case1 o hnone =>
    rw [skipLayout_of_none hnone]
    exact .here o
  | case2 o g hg ih =>
    rw [skipLayout_of_some hg]
    exact .behind hg ih

namespace SkipsTo

theorem skipLayout_eq (h : o.SkipsTo o₁) : o.skipLayout = o₁.skipLayout := by
  induction h with
  | here o => rfl
  | behind hg h ih => rw [skipLayout_of_some hg, ih]

/-- Skipping layout goes onward. -/
theorem exists_rest (h : o.SkipsTo o₁) :
    ∃ n, o₁.rest = o.rest.drop n ∧ n ≤ o.rest.length := by
  induction h with
  | here o => exact ⟨0, rfl, Nat.zero_le _⟩
  | @behind o o₁ g hg h ih =>
    have hle := Gap.length_le_of_read? hg
    obtain ⟨n, hrest, hn⟩ := ih
    simp only [pass, withLookback, advanceBy, List.length_drop] at hrest hn
    exact ⟨g.length + n, by rw [hrest, List.drop_drop], by omega⟩

theorem length_le (h : o.SkipsTo o₁) : o₁.rest.length ≤ o.rest.length := by
  obtain ⟨n, hrest, -⟩ := h.exists_rest
  rw [hrest, List.length_drop]
  exact Nat.sub_le _ _

end SkipsTo

/-- Behind all layout there is none. -/
theorem read?_skipLayout (o : Outlook) :
    Gap.read? o.skipLayout.lineStart o.skipLayout.rest = none := by
  induction o using skipLayout.induct with
  | case1 o hnone => rwa [skipLayout_of_none hnone]
  | case2 o g hg ih => rwa [skipLayout_of_some hg]

theorem scene_skipLayout (o : Outlook) : o.skipLayout.top.scene = o.top.scene := by
  induction o using skipLayout.induct with
  | case1 o hnone => rw [skipLayout_of_none hnone]
  | case2 o g hg ih =>
    rw [skipLayout_of_some hg, ih]
    rfl

/-- Where bytes are left, no end marker has been honoured. -/
theorem endMarker_of_ne_nil (h : o.honourEndMarker.rest ≠ []) :
    (o.lineStart && Line.isEndMarker o.rest) = false := by
  rw [Bool.eq_false_iff]
  intro hmarker
  rw [honourEndMarker, if_pos hmarker] at h
  exact h rfl

theorem honourEndMarker_of_eq_false (h : (o.lineStart && Line.isEndMarker o.rest) = false) :
    o.honourEndMarker = o := by
  rw [honourEndMarker, h]
  rfl

/-- Where a token of a statement begins, there is no layout. -/
theorem read?_settle (hholds : o.top.scene.holdsStatements) (hne : o.settle.rest ≠ []) :
    Gap.read? o.settle.lineStart o.settle.rest = none := by
  rw [settle, if_pos hholds] at hne ⊢
  rw [honourEndMarker_of_eq_false (endMarker_of_ne_nil hne)]
  exact o.read?_skipLayout

theorem scene_settle (o : Outlook) : o.settle.top.scene = o.top.scene := by
  rw [settle]
  split
  · rw [← o.scene_skipLayout, honourEndMarker]
    split <;> rfl
  · rfl

theorem rest_commit (turn : Turn) (kind : Kind) (o : Outlook) :
    (o.commit turn kind).rest = o.rest := by
  cases turn with
  | stay | push scene | swap scene => rfl
  | pop =>
    rw [commit]
    split <;> rfl

theorem length_step_le (o : Outlook) : o.step.2.rest.length ≤ o.rest.length := by
  cases hrest : o.rest with
  | nil => rw [step_of_nil hrest, hrest]
  | cons b rest =>
    rw [step_of_cons hrest, rest_commit, advanceBy, hrest, List.length_drop]
    exact Nat.sub_le _ _

/-- A block comment that is not closed is the last that a call finds. -/
theorem rest_next_of_opensAt (hholds : o.top.scene.holdsStatements)
    (hopen : BlockComment.opensAt o.settle.lineStart o.settle.rest) : o.next.2.rest = [] := by
  cases hrest : o.settle.rest with
  | nil => rw [next, step_of_nil hrest, hrest]
  | cons b rest =>
    rw [hrest] at hopen
    rw [next, step_of_cons hrest, rest_commit, advanceBy, hrest,
      Layer.length_read_of_opensAt (o.scene_settle ▸ hholds) hopen]
    exact List.drop_of_length_le (Nat.le_refl _)

/-- What begins with a space has a byte, and a call that finds it ends behind the space. -/
theorem length_next_lt (hx : Spaced x) (hrest : o.settle.rest = x) :
    o.next.2.rest.length < x.length := by
  obtain ⟨b, rest, rfl⟩ := List.exists_cons_of_ne_nil hx.ne_nil
  by_cases hholds : o.top.scene.holdsStatements
  · have hnone := read?_settle hholds (hrest ▸ List.cons_ne_nil b rest)
    rw [hrest] at hnone
    cases hx <;> cases hnone
  · have hread : 0 < (o.settle.top.read o.settle.lineStart b rest).length :=
      Layer.length_read_pos (o.scene_settle ▸ eq_false_of_ne_true hholds) hx
    rw [next, step_of_cons hrest, rest_commit, advanceBy, hrest, List.length_drop,
      List.length_cons]
    omega

/-- What is wrong is found at the beginning of what a call finds, or at a byte of it. -/
theorem fault_next {d : Diagnostic} (h : o.next.1.fault = some d) :
    d.pos = 0 ∨ d.pos < o.next.1.length := by
  rw [next] at h ⊢
  cases hrest : o.settle.rest with
  | nil =>
    rw [step_of_nil hrest, finish] at h
    split at h
    · cases h
    · cases h
      exact .inl rfl
  | cons b rest =>
    rw [step_of_cons hrest] at h ⊢
    exact Layer.fault_read h

/-- Two outlooks with the same first bytes ahead, behind which `x` follows in one and `y` in the
other. -/
structure Beside (front x y : List Byte) (o o' : Outlook) : Prop where
  rest : o.rest = front ++ x
  other : o' = { o with rest := front ++ y }

namespace Beside

variable {front : List Byte}

theorem advanceBy {n : Nat} (h : Beside front x y o o') (hn : n ≤ front.length) :
    Beside (front.drop n) x y (o.advanceBy n) (o'.advanceBy n) where
  rest := by
    rw [Outlook.advanceBy, h.rest]
    exact List.drop_append_of_le_length hn
  other := by
    simp only [Outlook.advanceBy, h.other, h.rest, List.drop_append_of_le_length hn,
      List.take_append_of_le_length hn]

theorem withLookback (l : Lookback) (h : Beside front x y o o') :
    Beside front x y (o.withLookback l) (o'.withLookback l) where
  rest := h.rest
  other := by rw [h.other]; rfl

theorem pass {g : Gap} (h : Beside front x y o o') (hg : g.length ≤ front.length) :
    Beside (front.drop g.length) x y (o.pass g) (o'.pass g) := by
  have hlookback : o'.top.lookback = o.top.lookback := by rw [h.other]
  rw [Outlook.pass, Outlook.pass, hlookback]
  exact (h.advanceBy hg).withLookback _

theorem commit (turn : Turn) (kind : Kind) (h : Beside front x y o o') :
    Beside front x y (o.commit turn kind) (o'.commit turn kind) := by
  rw [h.other]
  cases turn with
  | stay => exact ⟨h.rest, rfl⟩
  | push scene => exact ⟨h.rest, rfl⟩
  | swap scene => exact ⟨h.rest, rfl⟩
  | pop =>
    simp only [Outlook.commit]
    cases o.below with
    | nil => exact ⟨h.rest, rfl⟩
    | cons layer below => exact ⟨h.rest, rfl⟩

theorem length_rest (h : Beside front x y o o') : o.rest.length = front.length + x.length := by
  rw [h.rest, List.length_append]

/-- Layout that ends in front of the space is skipped alike. -/
theorem skipsTo (hx : Spaced x) (hy : Spaced y) (h : Beside front x y o o')
    (hskips : o.SkipsTo o₁) (hlong : x.length ≤ o₁.rest.length) :
    ∃ front' o₁', o'.SkipsTo o₁' ∧ Beside front' x y o₁ o₁' := by
  induction hskips generalizing front o' with
  | here o => exact ⟨front, o', .here o', h⟩
  | @behind o o₁ g hg hskips ih =>
    have hle := Gap.length_le_of_read? hg
    have hfar : g.length ≤ front.length := by
      have hlength := hskips.length_le
      have hpos := List.length_pos_iff.mpr hx.ne_nil
      simp only [Outlook.pass, Outlook.withLookback, Outlook.advanceBy, List.length_drop,
        h.length_rest] at hlength
      omega
    have hg' : Gap.read? o'.lineStart o'.rest = some g := by
      rw [h.rest] at hg
      rw [h.other]
      exact Gap.read?_spaced hx hy hg hfar
    obtain ⟨front', o₁', hskips', hbeside⟩ := ih (h.pass hfar) hlong
    exact ⟨front', o₁', .behind hg' hskips', hbeside⟩

/-- Layout that ends in front of the space is skipped alike, to its end. -/
theorem skipLayout (hx : Spaced x) (hy : Spaced y) (h : Beside front x y o o')
    (hlong : x.length ≤ o.skipLayout.rest.length)
    (hopen : BlockComment.opensAt o.skipLayout.lineStart o.skipLayout.rest = false) :
    ∃ front', Beside front' x y o.skipLayout o'.skipLayout := by
  obtain ⟨front', o₁', hskips, hbeside⟩ := h.skipsTo hx hy o.skipsTo_skipLayout hlong
  have hnone : Gap.read? o₁'.lineStart o₁'.rest = none := by
    rw [hbeside.rest] at hopen
    rw [hbeside.other]
    exact Gap.read?_spaced_none hx hy (hbeside.rest ▸ o.read?_skipLayout) hopen
  rw [hskips.skipLayout_eq, skipLayout_of_none hnone]
  exact ⟨front', hbeside⟩

/-- The end marker stands in both or in neither. -/
theorem endMarker (hx : Spaced x) (hy : Spaced y) (h : Beside front x y o o') :
    (o'.lineStart && Line.isEndMarker o'.rest) = (o.lineStart && Line.isEndMarker o.rest) := by
  rw [h.other, h.rest]
  exact congrArg (o.lineStart && ·) (Line.isEndMarker_spaced front hx hy).symm

/-- Two outlooks settle alike in front of the space. -/
theorem settle (hx : Spaced x) (hy : Spaced y) (h : Beside front x y o o')
    (hlong : x.length ≤ o.settle.rest.length)
    (hopen : o.top.scene.holdsStatements →
      BlockComment.opensAt o.settle.lineStart o.settle.rest = false) :
    ∃ front', Beside front' x y o.settle o'.settle ∧ o'.gap = o.gap
      ∧ o.gap + front'.length = front.length := by
  have hscene : o'.top.scene = o.top.scene := by rw [h.other]
  rw [Outlook.settle] at hlong hopen
  rw [Outlook.settle, Outlook.settle, gap, gap, hscene]
  split
  · rename_i hholds
    rw [if_pos hholds] at hlong hopen
    have hmarker := endMarker_of_ne_nil (o := o.skipLayout) fun hnil => by
      rw [hnil] at hlong
      exact hx.ne_nil (List.eq_nil_of_length_eq_zero (Nat.le_zero.mp hlong))
    rw [honourEndMarker_of_eq_false hmarker] at hlong hopen ⊢
    obtain ⟨front', hbeside⟩ := h.skipLayout hx hy hlong (hopen hholds)
    rw [honourEndMarker_of_eq_false ((hbeside.endMarker hx hy).trans hmarker)]
    obtain ⟨n, hrest, hn⟩ := o.skipsTo_skipLayout.exists_rest
    have hlength := hbeside.length_rest
    have hlength' := congrArg (fun o => o.rest.length) hbeside.other
    have hwhole := h.length_rest
    have hwhole' := congrArg (fun o => o.rest.length) h.other
    simp only [hrest, List.length_drop, List.length_append] at hlength hlength' hwhole'
    refine ⟨front', hbeside, ?_, ?_⟩
    · rw [hlength', hwhole', hrest, List.length_drop]
      omega
    · rw [hrest, List.length_drop]
      omega
  · exact ⟨front, h, rfl, Nat.zero_add _⟩

/-- What begins in front of a space and ends there begins in both, unless it is in one of them the
end of a heredoc that reaches over the space. -/
theorem step {b : Byte} {behind : List Byte} (hx : Spaced x) (hy : Spaced y)
    (h : Beside (b :: behind) x y o o') (hlong : x.length ≤ o.step.2.rest.length) :
    (o'.step.1 = o.step.1 ∧ ∃ front', Beside front' x y o.step.2 o'.step.2
        ∧ o.step.1.length + front'.length = behind.length + 1)
      ∨ o'.step.1.kind = .heredocEnd ∧ behind.length + 1 < o'.step.1.length := by
  have hrest : o.rest = b :: (behind ++ x) := h.rest
  have hrest' : o'.rest = b :: (behind ++ y) := by rw [h.other]; rfl
  have hstep : o'.step = (o.top.read o.lineStart b (behind ++ y),
      (o'.advanceBy (o.top.read o.lineStart b (behind ++ y)).length).commit
        (o.top.read o.lineStart b (behind ++ y)).turn
        (o.top.read o.lineStart b (behind ++ y)).kind) := by
    rw [step_of_cons hrest', h.other]
  rw [step_of_cons hrest, rest_commit, Outlook.advanceBy, List.length_drop, hrest,
    List.length_cons, List.length_append] at hlong
  rw [hstep, step_of_cons hrest]
  have hpos := List.length_pos_iff.mpr hx.ne_nil
  have hends : (o.top.read o.lineStart b (behind ++ x)).length ≤ behind.length + 1 := by omega
  rcases Layer.read_spaced behind o.top o.lineStart hx hy hends with hsame | hover
  · rw [hsame]
    refine .inl ⟨rfl, _, (h.advanceBy hends).commit _ _, ?_⟩
    rw [List.length_drop, List.length_cons]
    exact Nat.add_sub_of_le hends
  · exact .inr hover

/-- **A call that ends in front of a space** finds the same in two outlooks that stand side by side,
and leaves two that do, unless it finds in one of them the end of a heredoc that reaches over the
space. -/
theorem next (hx : Spaced x) (hy : Spaced y) (h : Beside front x y o o')
    (hlong : x.length ≤ o.next.2.rest.length) :
    o'.gap = o.gap ∧ o.gap < front.length
      ∧ ((o'.next.1 = o.next.1 ∧ ∃ front', Beside front' x y o.next.2 o'.next.2
          ∧ o.gap + o.next.1.length + front'.length = front.length)
        ∨ o'.next.1.kind = .heredocEnd ∧ front.length < o.gap + o'.next.1.length) := by
  have hsettled : x.length ≤ o.settle.rest.length := Nat.le_trans hlong (length_step_le _)
  have hopen : o.top.scene.holdsStatements →
      BlockComment.opensAt o.settle.lineStart o.settle.rest = false := by
    intro hholds
    rw [Bool.eq_false_iff]
    intro hopen
    rw [rest_next_of_opensAt hholds hopen] at hlong
    exact hx.ne_nil (List.eq_nil_of_length_eq_zero (Nat.le_zero.mp hlong))
  obtain ⟨front', hbeside, hgap, hfront⟩ := h.settle hx hy hsettled hopen
  cases front' with
  | nil => exact absurd hlong (Nat.not_le.mpr (length_next_lt hx hbeside.rest))
  | cons b behind =>
    rw [List.length_cons] at hfront
    refine ⟨hgap, by omega, ?_⟩
    rcases hbeside.step hx hy hlong with ⟨hsame, front', hbehind, hlength⟩ | ⟨hkind, hfar⟩
    · refine .inl ⟨hsame, front', hbehind, ?_⟩
      show o.gap + o.settle.step.1.length + front'.length = front.length
      omega
    · refine .inr ⟨hkind, ?_⟩
      show front.length < o.gap + o'.settle.step.1.length
      omega

end Beside

end Outlook

end ScriptLexer
