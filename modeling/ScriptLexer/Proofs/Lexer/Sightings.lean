import ScriptLexer.Proofs.Lexer.End
import ScriptLexer.Proofs.Lexer.LineStart

/-!
# What a construct remembers

A few bytes are read by what stands in front of them, and the frame of the innermost construct
remembers what that is: the kind of its last token, whether that token touches what comes next, and
whether a method is being defined. A caller who notes of every token where it ends and what it did
to the constructs can compute the same. `Lookback.behind` does that, from the tokens in the order in
which they were returned, with no regard to the stack.

That this is enough is not obvious, since a construct that comes to light again has its own past.
But the token that closed the construct above it counts for it, so its past is overwritten at once;
and a construct that is opened begins with none. What a frame remembers is thus told by the tokens
that were returned last, and the frames below need not be looked at.

Layout that separates takes the touch away. A comment does not, but it ends in front of a line feed
or of nothing, and a block comment begins a line: so if a token begins with any other byte, the last
one touches it exactly if nothing stands between them.

## Main definitions

* `Change` — what a token does to the constructs, as far as a caller can tell
* `Sighting`, `Lexer.sight` — what is seen of a call
* `Lookback.behind` — the lookback, computed from what was seen
* `Lexer.Remembers` — what holds of a lexer behind any number of calls

## Main results

* `Lexer.Remembers.step` — a call carries it on
* `Lexer.Remembers.kept_settle`, `Lexer.Remembers.abuts_settle` — the lookback with which a token is
  read
-/

namespace ScriptLexer

/-! ### What a caller sees -/

/-- What a token does to the constructs, as far as a caller can tell. -/
inductive Change where
  | stays
  | opens
  | closes
  /-- Statements were read in front of it, and text is read behind it, at the same depth. -/
  | turns
  deriving DecidableEq, Repr

/-- What a token of a kind may do to the constructs. -/
def Change.Of (kind : Kind) : Change → Prop
  | stays => kind ≠ .heredocBegin ∧ kind ≠ .heredocEnd ∧ kind ≠ .insertBegin ∧ kind ≠ .insertEnd
  | opens => kind = .stringPart ∨ kind = .heredocBegin ∨ kind = .insertBegin
  | closes => kind = .string ∨ kind = .heredocEnd ∨ kind = .insertEnd
  | turns => kind = .newLine

/-- A token that neither delimits nor ends a line leaves the constructs as they are. -/
theorem Change.Of.eq_stays {kind : Kind} {change : Change} (h : change.Of kind)
    (hkind : kind.delimits = false) (hline : kind ≠ .newLine) : change = .stays := by
  cases change with
  | stays => rfl
  | opens => rcases h with rfl | rfl | rfl <;> cases hkind
  | closes => rcases h with rfl | rfl | rfl <;> cases hkind
  | turns => exact absurd h hline

/-- What has changed from one lexer to another. -/
def Change.between (l l' : Lexer) : Change :=
  if l.depth < l'.depth then .opens
  else if l'.depth < l.depth then .closes
  else if l.stack.top.region.holdsStatements && !l'.stack.top.region.holdsStatements then .turns
  else .stays

/-- What is seen of a call. -/
structure Sighting where
  token : Token
  /-- The reading offset behind the token. -/
  stop : Nat
  change : Change
  deriving DecidableEq, Repr

/-- Reads the next token, and notes where it ends and what it does to the constructs. -/
def Lexer.sight (l : Lexer) : Except Misuse (Sighting × Lexer) := do
  let (token, l') ← l.next
  return (⟨token, l'.pos, .between l l'⟩, l')

theorem Lexer.sight_eq {l l' : Lexer} {token : Token} (h : l.next = .ok (token, l')) :
    l.sight = .ok (⟨token, l'.pos, .between l l'⟩, l') := by
  rw [sight, h]
  rfl

namespace Lookback

/-- The lookback of the innermost construct behind a token, if `l` is the one in front of it. -/
def follow (l : Lookback) (s : Sighting) : Lookback :=
  match s.change with
  | .stays | .closes => l.after s.token.kind
  | .opens | .turns => fresh

/-- The lookback of the innermost construct behind all that was seen. -/
def behind (seen : List Sighting) : Lookback :=
  seen.foldl follow fresh

variable {l l' : Lookback} {s : Sighting} {seen : List Sighting}

theorem behind_snoc (seen : List Sighting) (s : Sighting) :
    behind (seen ++ [s]) = (behind seen).follow s := by
  rw [behind, List.foldl_append]
  rfl

/-- Only whether a method is being defined is carried over a token. -/
theorem after_congr (h : l.defining = l'.defining) (kind : Kind) :
    l.after kind = l'.after kind := by
  rw [after, after, h]

theorem follow_congr (h : l.defining = l'.defining) (s : Sighting) : l.follow s = l'.follow s := by
  rw [follow, follow, after_congr h]

/-- No method is being defined behind a token that delimits. -/
theorem after_of_delimits {kind : Kind} (h : kind.delimits) (l l' : Lookback) :
    l.after kind = l'.after kind := by
  cases kind <;> first | rfl | cases h

end Lookback

/-! ### What one token does -/

/-- What a caller sees of a shift. -/
def Shift.change : Shift → Change
  | stay => .stays
  | push _ => .opens
  | pop => .closes
  | swap _ => .turns

theorem Region.holdsStatements_countBrace (kind : Kind) (region : Region) :
    (Frame.countBrace kind region).holdsStatements = region.holdsStatements := by
  cases region with
  | interpolation braces =>
    simp only [Frame.countBrace]
    split <;> rfl
  | statements | quoted _ | heredocLine _ | heredocBody _ => rfl

theorem Region.holdsStatements_of_interpolates {region : Region} (h : region.interpolates) :
    region.holdsStatements = false := by
  cases region <;> first | rfl | cases h

namespace Effect

variable {s : Stack} {kind : Kind} {shift : Shift}

theorem delimits_of_pop {region : Region} (h : Effect region kind .pop) : kind.delimits := by
  cases h <;> rfl

/-- A token does to the constructs what one of its kind may do. -/
theorem change_of {region : Region} (h : Effect region kind shift) : shift.change.Of kind := by
  cases h with
  | inside hkind =>
    refine ⟨?_, ?_, ?_, ?_⟩ <;>
    · rintro rfl
      cases hkind
  | _ => simp [Shift.change, Change.Of]

/-- A construct that is closed is not the script. -/
theorem exists_below (h : Effect s.top.region kind .pop) {opened : List Construct}
    (hs : s.Holds opened) : ∃ f below, s.below = f :: below := by
  obtain ⟨⟨region, lookback⟩, below⟩ := s
  have hclosed : region.construct?.isSome := by
    cases h <;> rfl
  cases below with
  | nil =>
    cases opened with
    | nil =>
      have hnone : region.construct? = none := by simpa [Stack.Holds, Stack.frames] using hs
      rw [hnone] at hclosed
      cases hclosed
    | cons c opened => simp [Stack.Holds, Stack.frames] at hs
  | cons f below => exact ⟨f, below, rfl⟩

/-- **A caller sees what a token does to the constructs.** -/
theorem change_eq (h : Effect s.top.region kind shift) {opened : List Construct}
    (hs : s.Holds opened) (t t' : Tape) :
    Change.between ⟨t, s⟩ ⟨t', s.commit shift kind⟩ = shift.change := by
  cases shift with
  | stay =>
    have hsame : (s.top.record kind).region.holdsStatements = s.top.region.holdsStatements :=
      Region.holdsStatements_countBrace kind s.top.region
    simp [Change.between, Lexer.depth, Stack.depth, Stack.commit, hsame, Shift.change]
  | push region => simp [Change.between, Lexer.depth, Stack.depth, Stack.commit, Shift.change]
  | pop =>
    obtain ⟨f, below, hbelow⟩ := h.exists_below hs
    simp [Change.between, Lexer.depth, Stack.depth, Stack.commit, hbelow, Shift.change]
  | swap region =>
    obtain ⟨⟨region', lookback⟩, below⟩ := s
    cases h with
    | beginsBody => simp [Change.between, Lexer.depth, Stack.depth, Stack.commit, Shift.change,
        Frame.enter, Frame.record, Frame.countBrace, Region.holdsStatements]

/-- **What the innermost construct remembers behind a token** is told by what the caller sees. -/
theorem lookback_commit (h : Effect s.top.region kind shift) {opened : List Construct}
    (hs : s.Holds opened) {sighting : Sighting} (hkind : sighting.token.kind = kind)
    (hchange : sighting.change = shift.change) :
    (s.commit shift kind).top.lookback = s.top.lookback.follow sighting := by
  subst hkind
  rw [Lookback.follow, hchange]
  cases shift with
  | stay | push region => rfl
  | swap region =>
    generalize s.top.region = region' at h
    generalize sighting.token.kind = kind at h
    cases h with
    | beginsBody => rfl
  | pop =>
    obtain ⟨f, below, hbelow⟩ := h.exists_below hs
    simp only [Stack.commit, hbelow, Frame.record, Shift.change]
    exact Lookback.after_of_delimits h.delimits_of_pop _ _

end Effect

/-! ### Layout -/

namespace Tape

variable {t : Tape} {l : Lookback} {b : Byte} {rest : List Byte}

/-- Layout takes the touch away, or leaves the lookback as it is. -/
theorem lookback_skipLayout (l : Lookback) (t : Tape) :
    (t.skipLayout l).2.previous = l.previous ∧ (t.skipLayout l).2.defining = l.defining
      ∧ (l.abuts = false → (t.skipLayout l).2.abuts = false) := by
  induction l, t using skipLayout.induct with
  | case1 l t hnone =>
    rw [skipLayout_of_none hnone]
    exact ⟨rfl, rfl, id⟩
  | case2 l t g hg ih =>
    rw [skipLayout_of_some hg]
    refine ⟨ih.1, ih.2.1, fun habuts => ih.2.2 ?_⟩
    rw [Lookback.afterGap, habuts, Bool.false_and]

/-- A piece of layout that does not separate is a comment, or begins a line. -/
theorem gap_cases {lineStart : Bool} {g : Gap} (h : Gap.read? lineStart rest = some g) :
    g.separates ∨ lineStart ∨ ∃ text, rest = Byte.ofChar '#' :: text ∧ g = Gap.comment text := by
  cases rest with
  | nil => cases h
  | cons b rest =>
    rw [Gap.read?] at h
    split at h
    · cases h
      exact .inl rfl
    split at h
    · rename_i hb
      cases h
      exact .inr (.inr ⟨rest, by rw [eq_of_beq hb], rfl⟩)
    split at h
    · rw [Gap.joinedLine?.eq_def] at h
      split at h <;> cases h
      · exact .inl rfl
      · exact .inl rfl
    split at h
    · rename_i hopen
      rw [BlockComment.opensAt, Bool.and_eq_true] at hopen
      exact .inr (.inl hopen.1)
    · cases h

/-- Behind a comment stands a line feed, or nothing. -/
theorem head?_behind_comment (text : List Byte) :
    (text.drop (Line.length text)).head?.all (· == Byte.newline) := by
  obtain ⟨line, -, hlength, hline | ⟨behind, hbehind⟩⟩ := Line.exists_line text
  · rw [← hlength, hline, List.drop_length]
    rfl
  · rw [← hlength, hbehind, List.drop_left]
    rfl

/-- **Behind layout a token touches what comes next exactly if there is none,** unless the next byte
is a line feed; the token must not end a line. -/
theorem abuts_skipLayout (hrest : (t.skipLayout l).1.rest = b :: rest) (hb : b ≠ Byte.newline)
    (hline : l.abuts → t.isLineStart t.pos = false) :
    (t.skipLayout l).2.abuts ↔ l.abuts ∧ (t.skipLayout l).1.pos = t.pos := by
  cases hg : Gap.read? (t.isLineStart t.pos) t.rest with
  | none =>
    rw [skipLayout_of_none hg]
    exact ⟨fun h => ⟨h, rfl⟩, fun h => h.1⟩
  | some g =>
    have hmoved : (t.skipLayout l).1.pos ≠ t.pos := by
      obtain ⟨n, hmove, -⟩ := exists_skipLayout (l.afterGap g.separates) (t.advanceBy g.length)
      have hpos := (hmove ⟨0, 0⟩).pos
      have hlength : 0 < g.length := Nat.succ_pos _
      rw [pos_advanceBy, Nat.min_eq_left (Gap.length_le_of_read? hg)] at hpos
      rw [skipLayout_of_some hg, hpos]
      omega
    refine iff_of_false (Bool.eq_false_iff.mp ?_) fun h => hmoved h.2
    rw [skipLayout_of_some hg] at hrest ⊢
    by_cases habuts : l.abuts
    · refine (lookback_skipLayout _ _).2.2 ?_
      rw [Lookback.afterGap, habuts, Bool.true_and]
      rcases gap_cases hg with hseparates | hstart | ⟨text, htext, rfl⟩
      · rw [hseparates]
        rfl
      · rw [hline habuts] at hstart
        cases hstart
      · -- Behind the comment nothing is skipped, and the byte there is a line feed.
        exfalso
        have hbehind : (t.advanceBy (Gap.comment text).length).rest
            = text.drop (Line.length text) := by
          rw [rest_advanceBy, htext]
          rfl
        have hhead := head?_behind_comment text
        have hnone : Gap.read? ((t.advanceBy (Gap.comment text).length).isLineStart
            (t.advanceBy (Gap.comment text).length).pos)
            (t.advanceBy (Gap.comment text).length).rest = none := by
          rw [hbehind]
          cases hdrop : text.drop (Line.length text) with
          | nil => rfl
          | cons c behind =>
            rw [hdrop] at hhead
            obtain rfl : c = Byte.newline := eq_of_beq hhead
            exact Gap.read?_of_isSolid (by decide) _ _
        rw [skipLayout_of_none hnone, hbehind] at hrest
        rw [hrest] at hhead
        exact hb (eq_of_beq hhead)
    · refine (lookback_skipLayout _ _).2.2 ?_
      rw [Lookback.afterGap, eq_false_of_ne_true habuts, Bool.false_and]

end Tape

/-! ### What holds behind any number of calls -/

namespace Lexer

variable {source : List Byte} {l l' : Lexer} {token : Token} {seen : List Sighting}

/-- What is known of a lexer of `source` when calls have been made, of which `seen` was seen. What
the innermost construct remembers is known as long as bytes are left. -/
structure Remembers (source : List Byte) (seen : List Sighting) (l : Lexer) : Prop where
  sound : l.Sound source
  inLine : (l.outlook source).EndsInLine
  lookback : l.tape.rest ≠ [] → l.stack.top.lookback = .behind seen
  /-- Behind a token that touches what comes next no line begins. -/
  lineStart : l.tape.rest ≠ [] → l.stack.top.region.holdsStatements →
    (Lookback.behind seen).abuts → l.tape.isLineStart l.tape.pos = false
  /-- Behind a token of statements that delimits nothing statements go on. -/
  statements : l.tape.rest ≠ [] → ∀ s ∈ seen.getLast?, s.token.kind.needsNoLexeme = false →
    s.token.kind.delimits = false → l.stack.top.region.holdsStatements
  changes : ∀ s ∈ seen, s.change.Of s.token.kind
  stops : ∀ s ∈ seen, s.stop ≤ l.pos
  earlier : l.tape.rest ≠ [] → ∀ s ∈ seen.dropLast, s.stop < l.pos
  last : ∀ s ∈ seen.getLast?, s.stop = l.pos
  gaps : seen.IsChain fun s s' => LayoutBetween source s.stop s'.token.pos

theorem remembers_ofBytes (source : List Byte) : Remembers source [] (ofBytes source) where
  sound := sound_ofBytes source
  inLine := ⟨trivial, List.forall_mem_nil _⟩
  lookback _ := rfl
  lineStart _ _ h := by cases h
  statements _ s h := by cases h
  changes := List.forall_mem_nil _
  stops := List.forall_mem_nil _
  earlier _ := List.forall_mem_nil _
  last s h := by cases h
  gaps := List.isChain_nil

/-- Settling forgets at most whether the last token touches the next one. -/
theorem lookback_settle (l : Lexer) :
    l.settle.stack.top.lookback.previous = l.stack.top.lookback.previous
      ∧ l.settle.stack.top.lookback.defining = l.stack.top.lookback.defining := by
  by_cases hregion : l.stack.top.region.holdsStatements
  · rw [settle_of_holdsStatements hregion]
    have hskip := Tape.lookback_skipLayout l.stack.top.lookback l.tape
    exact ⟨hskip.1, hskip.2.1⟩
  · rw [settle, if_neg hregion]
    exact ⟨rfl, rfl⟩

theorem rest_ne_nil_of_settle (h : l.settle.tape.rest ≠ []) : l.tape.rest ≠ [] := by
  intro hrest
  rw [settle_of_rest_eq_nil hrest] at h
  exact h hrest

/-- Where a call has been made to the end, nothing is left. -/
theorem rest_next_of_nil (hrest : l.settle.tape.rest = []) (hnext : l.next = .ok (token, l')) :
    l'.tape.rest = [] := by
  rcases next_cases hnext with ⟨-, -, rfl⟩ | ⟨b, rest, r, hcons, -⟩
  · rw [finish]
    split
    · rwa [Tape.rest_noteAt]
    · exact hrest
  · rw [hrest] at hcons
    cases hcons

/-- A call that answers with bytes of a token has settled in front of them. -/
theorem next_cases_of_rest (hrest : l'.tape.rest ≠ []) (hnext : l.next = .ok (token, l')) :
    ∃ b rest r, l.settle.tape.rest = b :: rest
      ∧ read l.settle.stack.top b rest l.settle.tape = .ok r
      ∧ token = r.token ∧ l' = ⟨r.tape, l.settle.stack.commit r.shift r.token.kind⟩ := by
  rcases next_cases hnext with ⟨hnil, -, -⟩ | hread
  · exact absurd (rest_next_of_nil hnil hnext) hrest
  · exact hread

/-- Behind a token of statements that delimits nothing statements go on. -/
theorem holdsStatements_next (hrest : l'.tape.rest ≠ []) (hnext : l.next = .ok (token, l'))
    (hkind : token.kind.needsNoLexeme = false) (hdelimits : token.kind.delimits = false) :
    l'.stack.top.region.holdsStatements := by
  obtain ⟨b, rest, r, -, hr, rfl, rfl⟩ := next_cases_of_rest hrest hnext
  have hholds := (statement_of_read hr hkind).1
  have heffect := (nests_read hr).effect
  generalize r.token.kind = kind at heffect hkind hdelimits ⊢
  generalize r.shift = shift at heffect ⊢
  generalize hregion : l.settle.stack.top.region = region at heffect hholds
  cases heffect with
  | inside _ =>
    rw [← hregion, ← Region.holdsStatements_countBrace kind] at hholds
    exact hholds
  | beginsBody => cases hkind
  | wholeString _ | opensString _ | resumesString | closesString | opensHeredoc _ | resumesBody _
  | closesBody | opensInterpolation _ | closesInterpolation => cases hdelimits

namespace Remembers

/-- **What is seen of a call,** and what it makes the innermost construct remember. -/
theorem follow (h : Remembers source seen l) (hnext : l.next = .ok (token, l')) :
    (Change.between l l').Of token.kind
      ∧ (l'.tape.rest ≠ [] → l'.stack.top.lookback
        = (Lookback.behind seen).follow ⟨token, l'.pos, .between l l'⟩) := by
  obtain ⟨opened, hholds⟩ := h.sound.holds
  obtain ⟨lookback, hstack⟩ := exists_settle_stack l
  have hsettled : l.settle.stack.Holds opened := hstack ▸ hholds
  have hbetween : ∀ m : Lexer, Change.between l.settle m = Change.between l m := by
    intro m
    simp only [Change.between, depth, hstack]
    rfl
  rcases next_cases hnext with ⟨hnil, rfl, rfl⟩ | ⟨b, rest, r, hrest, hr, rfl, rfl⟩
  · refine ⟨?_, fun hrest => absurd (rest_next_of_nil hnil hnext) hrest⟩
    have hsame : Change.between l.settle l.settle.finish.2 = .stays := by
      simp [Change.between, depth, finish_stack]
    rw [← hbetween, hsame]
    simp [Change.Of, finish, Token.bare]
  · have heffect := (nests_read hr).effect
    have hchange := heffect.change_eq hsettled l.settle.tape r.tape
    have hseen : Change.between l ⟨r.tape, l.settle.stack.commit r.shift r.token.kind⟩
        = r.shift.change := (hbetween _).symm.trans hchange
    rw [hseen]
    refine ⟨heffect.change_of, fun _ => ?_⟩
    have hne : l.tape.rest ≠ [] :=
      rest_ne_nil_of_settle (by rw [hrest]; exact List.cons_ne_nil b rest)
    rw [← h.lookback hne, ← Lookback.follow_congr (Lexer.lookback_settle l).2]
    exact heffect.lookback_commit hsettled rfl rfl

/-- **Every call is seen,** and carries on what is known. -/
theorem step (h : Remembers source seen l) :
    ∃ s l', l.sight = .ok (s, l') ∧ Remembers source (seen ++ [s]) l' := by
  obtain ⟨token, l', hnext, hmoves⟩ := exists_next h.sound.reads
  obtain ⟨hchange, hfollow⟩ := h.follow hnext
  have hanswers := h.sound.answers hnext
  have hle : l.pos ≤ l'.pos := Nat.le_trans hmoves.begins hmoves.stops
  refine ⟨_, l', sight_eq hnext, ?_⟩
  constructor
  · exact h.sound.of_next hnext
  · rw [hanswers.outlook]
    exact h.inLine.next
  · intro hrest
    rw [Lookback.behind_snoc]
    exact hfollow hrest
  · intro hrest hregion habuts
    have houtlook : (l'.outlook source).lineStart = l'.tape.isLineStart l'.tape.pos := rfl
    rw [Lookback.behind_snoc, ← hfollow hrest] at habuts
    rw [← houtlook, hanswers.outlook]
    refine h.inLine.lineStart_next ?_ ?_ ?_
    · rw [← hanswers.kind]
      intro hline
      obtain ⟨b, rest, r, -, -, rfl, rfl⟩ := next_cases_of_rest hrest hnext
      rw [hline, lookback_newLine] at habuts
      cases habuts
    · -- Behind a segment that is interrupted text goes on.
      rw [← hanswers.kind, Bool.eq_false_iff]
      intro hpart
      obtain ⟨b, rest, r, -, hr, rfl, rfl⟩ := next_cases_of_rest hrest hnext
      rw [Region.holdsStatements_of_interpolates (interrupted_of_nests (nests_read hr) hpart).1]
        at hregion
      cases hregion
    · rw [← hanswers.outlook]
      exact hrest
  · intro hrest s hs hkind hdelimits
    rw [List.getLast?_concat] at hs
    cases hs
    exact holdsStatements_next hrest hnext hkind hdelimits
  · rw [List.forall_mem_append, List.forall_mem_singleton]
    exact ⟨h.changes, hchange⟩
  · rw [List.forall_mem_append, List.forall_mem_singleton]
    exact ⟨fun s hs => Nat.le_trans (h.stops s hs) hle, Nat.le_refl _⟩
  · intro hrest s hs
    rw [List.dropLast_concat] at hs
    have hadvances := hmoves.advances fun hkind =>
      hrest (ended_of_next h.sound.reads hnext hkind).1.rest
    have hstop := h.stops s hs
    have hbegins := hmoves.begins
    omega
  · intro s hs
    rw [List.getLast?_concat] at hs
    cases hs
    rfl
  · rw [List.isChain_append]
    refine ⟨h.gaps, List.isChain_singleton _, fun s hs s' hs' => ?_⟩
    cases hs'
    rw [h.last s hs]
    exact hmoves.gap

/-- What settling keeps of the lookback is told by what was seen. -/
theorem kept_settle (h : Remembers source seen l) (hsettled : l.settle.tape.rest ≠ []) :
    l.settle.stack.top.lookback.previous = (Lookback.behind seen).previous
      ∧ l.settle.stack.top.lookback.defining = (Lookback.behind seen).defining := by
  rw [← h.lookback (rest_ne_nil_of_settle hsettled)]
  exact lookback_settle l

/-- **A token of statements is touched by the last one** if nothing stands between them, unless it
is a line feed. -/
theorem abuts_settle (h : Remembers source seen l) {b : Byte} {rest : List Byte}
    (hregion : l.stack.top.region.holdsStatements) (hrest : l.settle.tape.rest = b :: rest)
    (hb : b ≠ Byte.newline) :
    l.settle.stack.top.lookback.abuts ↔ (Lookback.behind seen).abuts ∧ l.settle.pos = l.pos := by
  have hsettled : l.settle.tape.rest ≠ [] := by
    rw [hrest]
    exact List.cons_ne_nil b rest
  have hne := rest_ne_nil_of_settle hsettled
  rw [settle_of_holdsStatements hregion] at hsettled hrest ⊢
  have hmarker := Tape.honourEndMarker_eq hsettled
  rw [← h.lookback hne]
  simp only [pos, hmarker] at hrest ⊢
  exact Tape.abuts_skipLayout hrest hb fun habuts =>
    h.lineStart hne hregion (h.lookback hne ▸ habuts)

end Remembers

/-- **What is seen of any number of calls.** -/
theorem exists_remembers (source : List Byte) (n : Nat) :
    ∃ seen l, calls sight n (ofBytes source) = .ok (seen, l) ∧ Remembers source seen l :=
  calls_induction (remembers_ofBytes source) Remembers.step n

end Lexer

end ScriptLexer
