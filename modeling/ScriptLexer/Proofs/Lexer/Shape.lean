import Mathlib.Data.List.Chain
import ScriptLexer.Proofs.Lexeme.Form
import ScriptLexer.Proofs.Lexer.Identifier

/-!
# The shape of the stack

Not every stack of constructs can be reached. Strings and heredocs are opened in statements, and
interpolations in text that may be interrupted; nothing else is opened, and the script itself is
opened nowhere. So what lies on what is decided region by region: `Region.Admits` says which
construct may lie directly on which, and a stack is *ordered* if every frame is admitted by the one
beneath it and the lowest is the script's.

The argument is about one token. Its `Effect` names the region it was read in and what it opens, and
these are just the pairs that are admitted; what turns the line of a heredoc into its body is
admitted wherever the line was. The rest of what is said of a stack is said of one frame at a time:
the byte that closes a string, which never is a hash sign since a text that may close there is never
interrupted, and the identifier of a heredoc.

## Main definitions

* `Region.Admits` — which construct may lie directly on which
* `Stack.Ordered` — every frame is admitted by the one beneath it
* `Lexer.Shaped` — what is known of every frame of a lexer's stack

## Main results

* `Effect.ordered` — a token keeps the stack ordered
* `Lexer.stack_is_shaped` — the stack has this shape between any two calls
-/

namespace ScriptLexer

/-! ### What may lie on what -/

namespace Region

/-- Whether the construct of a region may lie directly on that of `outer`. Strings and heredocs lie
on statements, and interpolations on text that may be interrupted. -/
def Admits (outer : Region) : Region → Prop
  | statements => False
  | interpolation _ => outer.interpolates
  | quoted _ | heredocLine _ | heredocBody _ => outer.holdsStatements

/-- A string that may be interrupted closes with punctuation, but not with the byte that introduces
an interpolation. -/
def Fenced : Region → Prop
  | quoted close => close.isPunctuation ∧ close ≠ Byte.ofChar '#'
  | statements | interpolation _ | heredocLine _ | heredocBody _ => True

variable {outer inner : Region} (kind : Kind)

/-- Counting braces changes nothing but the number of braces. -/
theorem countBrace_cases (region : Region) :
    Frame.countBrace kind region = region
      ∨ ∃ braces braces', region = interpolation braces
        ∧ Frame.countBrace kind region = interpolation braces' := by
  cases region with
  | interpolation braces =>
    refine .inr ⟨braces, ?_⟩
    simp only [Frame.countBrace]
    split
    · exact ⟨_, trivial, rfl⟩
    · exact ⟨_, trivial, rfl⟩
    · exact ⟨_, trivial, rfl⟩
  | statements | quoted _ | heredocLine _ | heredocBody _ => exact .inl rfl

theorem Admits.countBrace (h : outer.Admits inner) :
    outer.Admits (Frame.countBrace kind inner) := by
  rcases countBrace_cases kind inner with hsame | ⟨braces, braces', rfl, hcount⟩
  · rwa [hsame]
  · rwa [hcount]

theorem Admits.countBrace_outer (h : outer.Admits inner) :
    (Frame.countBrace kind outer).Admits inner := by
  rcases countBrace_cases kind outer with hsame | ⟨braces, braces', rfl, hcount⟩
  · rwa [hsame]
  · rw [hcount]
    cases inner <;> exact h

/-- Text admits nothing but interpolations. -/
theorem Admits.eq_interpolation (h : outer.Admits inner) (houter : outer.holdsStatements = false) :
    ∃ braces, inner = interpolation braces := by
  have hstatements : ¬ outer.holdsStatements := by simp [houter]
  cases inner with
  | statements => exact h.elim
  | interpolation braces => exact ⟨braces, rfl⟩
  | quoted _ | heredocLine _ | heredocBody _ => exact absurd h hstatements

/-- The text that may be interrupted is that of strings and of decoded bodies. -/
theorem cases_of_interpolates {region : Region} (h : region.interpolates) :
    (∃ close, region = quoted close)
      ∨ ∃ heredoc, region = heredocBody heredoc ∧ heredoc.verbatim = false := by
  cases region with
  | quoted close => exact .inl ⟨close, rfl⟩
  | heredocBody heredoc =>
    rw [interpolates, Bool.not_eq_true'] at h
    exact .inr ⟨heredoc, rfl, h⟩
  | statements | interpolation _ | heredocLine _ => cases h

theorem Fenced.countBrace {region : Region} (h : region.Fenced) :
    (Frame.countBrace kind region).Fenced := by
  rcases countBrace_cases kind region with hsame | ⟨braces, braces', rfl, hcount⟩
  · rwa [hsame]
  · rw [hcount]
    trivial

end Region

/-! ### Ordered stacks -/

/-- Every construct lies on one that admits it, and the lowest is the script itself. -/
structure Stack.Ordered (s : Stack) : Prop where
  admitted : s.frames.IsChain fun f g => g.region.Admits f.region
  lowest : ∀ f ∈ s.frames.getLast?, f.region = .statements

namespace Stack

variable {top f g : Frame} {below outer : List Frame} {s : Stack} {kind : Kind} {region : Region}

theorem ordered_base : base.Ordered where
  admitted := .singleton _
  lowest f hf := by
    cases hf
    rfl

/-- What lies beneath an ordered stack is ordered. -/
theorem Ordered.uncover (h : Ordered ⟨top, f :: below⟩) : Ordered ⟨f, below⟩ where
  admitted := h.admitted.tail
  lowest := h.lowest

/-- The innermost construct may be replaced by one that is admitted wherever it is. -/
theorem Ordered.replace (h : Ordered ⟨top, below⟩)
    (hlowest : top.region = .statements → g.region = .statements)
    (hadmits : ∀ outer : Region, outer.Admits top.region → outer.Admits g.region) :
    Ordered ⟨g, below⟩ where
  admitted := by
    have hchain := List.isChain_cons.mp h.admitted
    exact hchain.2.cons fun f hf => hadmits f.region (hchain.1 f hf)
  lowest := by
    cases below with
    | nil =>
      intro f hf
      cases hf
      exact hlowest (h.lowest top rfl)
    | cons f below => exact h.lowest

theorem Ordered.stay (h : s.Ordered) (kind : Kind) : (s.commit .stay kind).Ordered := by
  refine h.replace (g := s.top.record kind) (fun hstatements => ?_)
    fun outer hadmits => hadmits.countBrace kind
  show Frame.countBrace kind s.top.region = .statements
  rw [hstatements]
  rfl

theorem Ordered.push (h : s.Ordered) (kind : Kind) (hadmits : s.top.region.Admits region) :
    (s.commit (.push region) kind).Ordered := by
  have hstay := h.stay kind
  constructor
  · exact hstay.admitted.cons_cons (hadmits.countBrace_outer kind)
  · exact hstay.lowest

theorem Ordered.pop (h : s.Ordered) (kind : Kind) : (s.commit .pop kind).Ordered := by
  obtain ⟨top, below⟩ := s
  cases below with
  | nil => exact h.stay kind
  | cons f below => exact h.uncover.stay kind

theorem Ordered.swap (h : s.Ordered) (kind : Kind) (hbase : s.top.region ≠ .statements)
    (hadmits : ∀ outer : Region, outer.Admits s.top.region → outer.Admits region) :
    (s.commit (.swap region) kind).Ordered :=
  (h.replace (g := .enter region) (fun hstatements => absurd hstatements hbase) hadmits).stay kind

/-- **The construct beneath admits the one that lies on it,** and what lies on nothing is the
script. -/
theorem Ordered.beneath (h : s.Ordered) (hsuffix : f :: outer <:+ s.frames) :
    (outer = [] ∧ f.region = .statements)
      ∨ ∃ g ∈ outer.head?, g.region.Admits f.region := by
  cases outer with
  | nil =>
    have hlast : s.frames.getLast? = some f := by
      obtain ⟨inner, hinner⟩ := hsuffix
      rw [← hinner, List.getLast?_concat]
    exact .inl ⟨rfl, h.lowest f hlast⟩
  | cons g outer =>
    have hchain := h.admitted.suffix hsuffix
    exact .inr ⟨g, rfl, (List.isChain_cons_cons.mp hchain).1⟩

/-- The script lies beneath everything else, and nowhere again. -/
theorem Ordered.exists_lowest (h : s.Ordered) :
    ∃ above f, s.frames = above ++ [f] ∧ f.region = .statements
      ∧ ∀ g ∈ above, g.region ≠ .statements := by
  obtain ⟨above, f, hframes⟩ : ∃ above f, s.frames = above ++ [f] :=
    ⟨_, _, (List.dropLast_append_getLast (List.cons_ne_nil _ _)).symm⟩
  refine ⟨above, f, hframes, h.lowest f (by rw [hframes, List.getLast?_concat]; rfl), ?_⟩
  intro g hg hstatements
  obtain ⟨inner, outer, rfl⟩ := List.append_of_mem hg
  have hsuffix : g :: (outer ++ [f]) <:+ s.frames := ⟨inner, by simp [hframes]⟩
  rcases h.beneath hsuffix with ⟨hnil, -⟩ | ⟨g', -, hadmits⟩
  · simp at hnil
  · -- The script itself is admitted nowhere.
    rw [hstatements] at hadmits
    exact hadmits

/-- What a construct is suspended for is admitted by it. -/
theorem Ordered.exists_admitted (h : s.Ordered) (hf : f ∈ s.below) :
    ∃ g ∈ s.frames, f.region.Admits g.region := by
  obtain ⟨inner, outer, hbelow⟩ := List.append_of_mem hf
  have hframes : s.frames = (s.top :: inner) ++ f :: outer := by
    rw [frames, hbelow]
    rfl
  have hchain := h.admitted
  rw [hframes, List.isChain_append] at hchain
  have hne := List.cons_ne_nil s.top inner
  refine ⟨(s.top :: inner).getLast hne, ?_, ?_⟩
  · rw [hframes]
    exact List.mem_append_left _ (List.getLast_mem hne)
  · exact hchain.2.2 _ (List.getLast?_eq_some_getLast hne) f rfl

end Stack

/-- **A token keeps the stack ordered,** whatever its effect is. -/
theorem Effect.ordered {s : Stack} {kind : Kind} {shift : Shift}
    (h : Effect s.top.region kind shift) (hs : s.Ordered) : (s.commit shift kind).Ordered := by
  generalize htop : s.top.region = region at h
  cases h with
  | inside _ | wholeString _ | resumesString | resumesBody _ => exact hs.stay _
  | closesString | closesBody | closesInterpolation => exact hs.pop _
  | opensString hregion | opensHeredoc hregion | opensInterpolation hregion =>
    exact hs.push _ (htop ▸ hregion)
  | beginsBody =>
    -- The body of a heredoc may lie where its line did.
    refine hs.swap _ ?_ ?_
    · rw [htop]
      simp
    · rw [htop]
      exact fun outer hline => hline

/-! ### The bytes that close strings -/

/-- A text that closes with a hash sign is never interrupted: each of them closes it. -/
theorem Style.ne_hash_of_interpolation {close : Byte} {lineStart : Bool} {rest : List Byte}
    (h : ((Style.decoded close).passage lineStart rest).stop = .interpolation) :
    close ≠ Byte.ofChar '#' := by
  rintro rfl
  rcases passage_stop_cases (.decoded (Byte.ofChar '#')) lineStart rest with
    ⟨lineStart', hstop⟩ | ⟨hend, -⟩
  · rw [h] at hstop
    generalize rest.drop _ = ahead at hstop
    rcases stop?_cases hstop with ⟨n, hclosed, -⟩ | ⟨-, -, hsome⟩
    · cases hclosed
    · -- An introducer begins with a hash sign, and that closes the text.
      have hhead : ahead.head? = some (Byte.ofChar '#') := by
        rw [Introducer.read?.eq_def] at hsome
        split at hsome
        · rfl
        · rfl
        · cases hsome
      rw [stop?, close?, if_pos hhead] at hstop
      cases hstop
  · rw [h] at hend
    cases hend

namespace Reading

variable {t : Tape} {r : Reading} {b : Byte} {rest : List Byte} {close : Byte}

/-- The string that a statement opens closes with punctuation, but not with a hash sign. -/
theorem fenced_of_statement {lookback : Lookback} (h : statement lookback b rest t = .ok r)
    (hshift : r.shift = .push (.quoted close)) : (Region.quoted close).Fenced := by
  have hform := Lexeme.form_read lookback (t.isLineStart t.pos) b rest
  rw [statement] at h
  generalize Lexeme.read lookback (t.isLineStart t.pos) b rest = lexeme at h hform
  cases lexeme with
  | bare kind length =>
    cases h
    cases hshift
  | spelled kind length =>
    obtain ⟨span, rfl⟩ := exists_of_spelled h
    cases hshift
  | quoted isVerbatim close' opener =>
    cases isVerbatim with
    | true =>
      rw [ofLexeme, verbatim_eq] at h
      cases h
      simp only [text, withLiteral, Ending.verbatim] at hshift
      split at hshift <;> cases hshift
    | false =>
      rw [ofLexeme, segment_eq] at h
      cases h
      simp only [text, withLiteral, Ending.quoted] at hshift
      split at hshift
      · rename_i hstop
        cases hshift
        exact ⟨hform.isPunctuation_close, Style.ne_hash_of_interpolation hstop⟩
      · cases hshift
      · cases hshift
  | heredoc opener =>
    obtain ⟨identifier, -, h⟩ := exists_of_bind_eq_ok h
    obtain ⟨span, rfl⟩ := exists_of_spelled h
    cases hshift
  | malformed cause length shown =>
    cases shown with
    | true =>
      obtain ⟨span, rfl⟩ := exists_of_spelled h
      cases hshift
    | false =>
      cases h
      cases hshift

end Reading

namespace Lexer

variable {source : List Byte} {l l' : Lexer} {token : Token} {f : Frame} {b : Byte}
  {rest : List Byte} {t : Tape} {r : Reading}

/-- What a token opens is fenced. -/
theorem fenced_opened (h : read f b rest t = .ok r) :
    ∀ region ∈ r.shift.opened?, region.Fenced := by
  intro region hopened
  cases region with
  | quoted close =>
    obtain ⟨top, lookback⟩ := f
    have heffect := (nests_read h).effect
    have hshift : r.shift = .push (.quoted close) := by
      generalize r.shift = shift at heffect hopened
      generalize r.token.kind = kind at heffect
      cases heffect <;> cases hopened
      rfl
    cases top with
    | statements => exact Reading.fenced_of_statement h hshift
    | interpolation braces =>
      simp only [read] at h
      split at h
      · cases h
        cases hshift
      · exact Reading.fenced_of_statement h hshift
    | heredocLine heredoc =>
      simp only [read] at h
      split at h
      · cases h
        cases hshift
      · exact Reading.fenced_of_statement h hshift
    | quoted _ | heredocBody _ =>
      -- In text nothing is opened but an interpolation.
      rw [hshift] at heffect
      generalize r.token.kind = kind at heffect
      cases heffect with
      | opensString hregion => cases hregion
  | statements | interpolation _ | heredocLine _ | heredocBody _ => trivial

/-! ### What is known of every frame -/

/-- What is known of the frames of a lexer's stack. A frame `f` lies on the frames `outer` where
`f :: outer` is a suffix of all frames, from the inside out. -/
structure Shaped (source : List Byte) (l : Lexer) : Prop where
  /-- The lowest frame holds the statements of the script, and no other frame does. -/
  lowest : ∃ above f, l.stack.frames = above ++ [f] ∧ f.region = .statements
    ∧ ∀ g ∈ above, g.region ≠ .statements
  /-- What lies directly on text is an interpolation. -/
  on_text : ∀ f g outer, f :: g :: outer <:+ l.stack.frames → g.region.holdsStatements = false →
    ∃ braces, f.region = .interpolation braces
  /-- An interpolation lies directly on a string, or on the body of a heredoc that is decoded. -/
  interpolation : ∀ f outer, f :: outer <:+ l.stack.frames →
    (∃ braces, f.region = .interpolation braces) →
    ∃ g ∈ outer.head?, (∃ close, g.region = .quoted close)
      ∨ ∃ heredoc, g.region = .heredocBody heredoc ∧ heredoc.verbatim = false
  /-- A string and a heredoc lie directly on statements. -/
  on_statements : ∀ f outer, f :: outer <:+ l.stack.frames →
    ((∃ close, f.region = .quoted close)
      ∨ ∃ heredoc, f.region = .heredocLine heredoc ∨ f.region = .heredocBody heredoc) →
    ∃ g ∈ outer.head?, g.region.holdsStatements
  /-- A verbatim body is never suspended. -/
  suspended : ∀ f ∈ l.stack.below, ∀ heredoc, f.region = .heredocBody heredoc →
    heredoc.verbatim = false
  /-- A string that is open closes with punctuation, but not with a hash sign. -/
  close : ∀ f ∈ l.stack.frames, ∀ close, f.region = .quoted close →
    close.isPunctuation ∧ close ≠ Byte.ofChar '#'
  /-- The identifier that a heredoc waits for has been read, has a byte and no line feed, and is as
  the script has it. -/
  identifier : ∀ f ∈ l.stack.frames, ∀ heredoc,
    f.region = .heredocLine heredoc ∨ f.region = .heredocBody heredoc →
    heredoc.identifier.start < heredoc.identifier.stop ∧ heredoc.identifier.stop ≤ l.pos
      ∧ ∃ identifier, heredoc.identifier.slice? source = some identifier
        ∧ heredoc.identifier.slice? l.tape.buffer = some identifier
        ∧ Byte.newline ∉ identifier

/-- What every call carries on. -/
structure Standing (source : List Byte) (l : Lexer) : Prop where
  reads : l.Reads source
  identified : l.Identified source
  ordered : l.stack.Ordered
  fenced : ∀ f ∈ l.stack.frames, f.region.Fenced

theorem standing_ofBytes (source : List Byte) : (ofBytes source).Standing source where
  reads := reads_ofBytes source
  identified := identified_ofBytes source
  ordered := Stack.ordered_base
  fenced := List.forall_mem_singleton.mpr trivial

/-- Coming to the next token changes no region. -/
theorem Standing.settle (h : l.Standing source) : l.settle.Standing source := by
  obtain ⟨lookback, hstack⟩ := exists_settle_stack l
  obtain ⟨hreads, -⟩ := h.reads.settle
  refine ⟨hreads, h.reads.identified_settle h.identified, ?_, ?_⟩
  · rw [hstack]
    exact h.ordered.replace (g := ⟨l.stack.top.region, lookback⟩) id fun _ => id
  · rw [hstack]
    have hall := List.forall_mem_cons.mp h.fenced
    exact List.forall_mem_cons.mpr ⟨hall.1, hall.2⟩

/-- **A call carries on what is known.** -/
theorem Standing.next (h : l.Standing source) (hnext : l.next = .ok (token, l')) :
    l'.Standing source := by
  have hsettled := h.settle
  have hmoves := h.reads.moves hnext
  have hidentified := h.reads.identified_next h.identified hnext
  rcases next_cases hnext with ⟨-, -, rfl⟩ | ⟨b, rest, r, -, hr, -, rfl⟩
  · refine ⟨hmoves.reads, hidentified, ?_, ?_⟩
    · rw [finish_stack]
      exact hsettled.ordered
    · rw [finish_stack]
      exact hsettled.fenced
  · refine ⟨hmoves.reads, hidentified, (nests_read hr).effect.ordered hsettled.ordered, ?_⟩
    exact Stack.forall_commit (P := Region.Fenced) (fun _ => id)
      (fun _ => Region.Fenced.countBrace _) hsettled.fenced (fenced_opened hr)

/-- **What is carried on gives the shape.** -/
theorem Standing.shaped (h : l.Standing source) : l.Shaped source := by
  constructor
  case lowest => exact h.ordered.exists_lowest
  case on_text =>
    intro f g outer hsuffix hg
    rcases h.ordered.beneath hsuffix with ⟨hnil, -⟩ | ⟨g', hg', hadmits⟩
    · cases hnil
    · cases hg'
      exact hadmits.eq_interpolation hg
  case interpolation =>
    rintro f outer hsuffix ⟨braces, hregion⟩
    rcases h.ordered.beneath hsuffix with ⟨-, hstatements⟩ | ⟨g, hg, hadmits⟩
    · rw [hstatements] at hregion
      cases hregion
    · rw [hregion] at hadmits
      exact ⟨g, hg, Region.cases_of_interpolates hadmits⟩
  case on_statements =>
    intro f outer hsuffix hregion
    rcases h.ordered.beneath hsuffix with ⟨-, hstatements⟩ | ⟨g, hg, hadmits⟩
    · rw [hstatements] at hregion
      simp at hregion
    · refine ⟨g, hg, ?_⟩
      rcases hregion with ⟨close, hregion⟩ | ⟨heredoc, hregion | hregion⟩
      all_goals
        rw [hregion] at hadmits
        exact hadmits
  case suspended =>
    intro f hf heredoc hregion
    obtain ⟨g, -, hadmits⟩ := h.ordered.exists_admitted hf
    -- What lies on the body is an interpolation, so the body is one that has interpolations.
    obtain ⟨braces, hinner⟩ := hadmits.eq_interpolation (by rw [hregion]; rfl)
    rw [hinner, hregion] at hadmits
    simpa [Region.Admits, Region.interpolates] using hadmits
  case close =>
    intro f hf close hregion
    have hfenced := h.fenced f hf
    rwa [hregion] at hfenced
  case identifier =>
    intro f hf heredoc hregion
    have hnamed := h.reads.named f hf
    have hidentified := h.identified f hf
    rcases hregion with hregion | hregion
    · rw [hregion] at hnamed hidentified
      exact ⟨hnamed.1, hnamed.2, hidentified⟩
    · rw [hregion] at hnamed hidentified
      exact ⟨hnamed.1, hnamed.2, hidentified⟩

/-- **The stack has its shape between any two calls,** and where the next token begins. Whatever the
script is, its statements lie beneath everything else, interpolations lie on text and nothing else
does, a verbatim body is always innermost, a string closes with punctuation other than a hash sign,
and the identifier of an open heredoc is still as the script has it, though tokens behind it have
been decoded in place. -/
theorem stack_is_shaped (source : List Byte) (n : Nat) :
    ∃ tokens l, calls next n (ofBytes source) = .ok (tokens, l)
      ∧ l.Shaped source ∧ l.settle.Shaped source := by
  obtain ⟨tokens, l, hcalls, -⟩ := exists_calls source n
  have hstanding : l.Standing source :=
    calls_invariant Standing.next (standing_ofBytes source) hcalls
  exact ⟨tokens, l, hcalls, hstanding.shaped, hstanding.settle.shaped⟩

end Lexer

end ScriptLexer
