import ScriptLexer.Proofs.Lexer.Calls
import ScriptLexer.Proofs.Lexer.Effect
import ScriptLexer.Proofs.Token.Bracket
import ScriptLexer.Proofs.Token.Punctuator

/-!
# The braces of an interpolation

An interpolation ends at a right brace, and an interpolation may have braces of its own. So its
frame counts them, and the brace that ends it is the first one that closes none of them.

The frame counts what is read in it, and that is not all that is written in the interpolation: what
is written in a construct opened there is read in the frame of that construct. The braces of deeper
interpolations are rightly left out. But the line behind the opener of a heredoc holds statements of
the interpolation too, and its braces are not counted either. So braces are balanced between an
interpolation's two tokens if deeper interpolations *and heredocs* are left out, and need not be if
only deeper interpolations are.

## Main definitions

* `shields` — the brackets that keep braces out of the count
* `Stack.Counted` — the counts to which kinds lead, from what is open above an interpolation

## Main results

* `Lexer.interpolation_braces` — braces outside of interpolations and heredocs are balanced
* `Lexer.heredoc_line_unbalances` — braces outside of interpolations only need not be
-/

namespace ScriptLexer

/-! ### The brackets that count -/

namespace Bracket

/-- The tokens around the statements of an interpolation. -/
def interpolation : Bracket :=
  ⟨.insertBegin, .insertEnd⟩

/-- The tokens around a heredoc, its opener's line included. -/
def heredoc : Bracket :=
  ⟨.heredocBegin, .heredocEnd⟩

def brace : Bracket :=
  ⟨.punctuator .leftBrace, .punctuator .rightBrace⟩

end Bracket

/-- The brackets that keep a token out of the count of an interpolation's braces. -/
def shields : List Bracket :=
  [.interpolation, .heredoc]

/-! ### What stands above an interpolation -/

namespace Region

def isInterpolation : Region → Bool
  | interpolation _ => true
  | _ => false

/-- Whether tokens that are read in the region stand in brackets. Strings have none. -/
def isShielded : Region → Bool
  | quoted _ => false
  | _ => true

end Region

/-- Whether the kind is that of a brace. -/
def Kind.isBrace : Kind → Bool
  | punctuator .leftBrace | punctuator .rightBrace => true
  | _ => false

/-- Whether the kind is one of the brackets that keep braces out of the count. -/
def Kind.isShield : Kind → Bool
  | insertBegin | insertEnd | heredocBegin | heredocEnd => true
  | _ => false

/-- Only braces are counted. -/
theorem Frame.countBrace_of_isBrace {k : Kind} (h : k.isBrace = false) (region : Region) :
    countBrace k region = region := by
  cases region with
  | interpolation braces =>
    rw [countBrace]
    · rintro rfl
      cases h
    · rintro rfl
      cases h
  | statements | quoted _ | heredocLine _ | heredocBody _ => rfl

namespace Stack

/-- The regions of a stack, from the inside out. -/
def regions (s : Stack) : List Region :=
  s.frames.map (·.region)

/-- The stack holds the regions `inner`, from the inside out, above an interpolation in which
`braces` braces are open. -/
def Above (s : Stack) (inner : List Region) (braces : Nat) : Prop :=
  ∃ lower, s.regions = inner ++ .interpolation braces :: lower

variable {s : Stack} {kind : Kind} {inner : List Region} {braces : Nat} {region : Region}

theorem regions_eq (s : Stack) : s.regions = s.top.region :: s.below.map (·.region) :=
  rfl

theorem Above.push (h : s.Above inner braces) (hkind : kind.isBrace = false) (region : Region) :
    (s.commit (.push region) kind).Above (region :: inner) braces := by
  obtain ⟨lower, hregions⟩ := h
  refine ⟨lower, ?_⟩
  rw [List.cons_append, ← hregions]
  simp [regions_eq, commit, Frame.enter, Frame.record, Frame.countBrace_of_isBrace hkind]

theorem Above.stay (h : s.Above inner braces) (hkind : kind.isBrace = false) :
    (s.commit .stay kind).Above inner braces := by
  obtain ⟨lower, hregions⟩ := h
  refine ⟨lower, ?_⟩
  rw [← hregions]
  simp [regions_eq, commit, Frame.record, Frame.countBrace_of_isBrace hkind]

theorem Above.pop (h : s.Above (region :: inner) braces) (hkind : kind.isBrace = false) :
    (s.commit .pop kind).Above inner braces := by
  obtain ⟨lower, hregions⟩ := h
  obtain ⟨top, below⟩ := s
  refine ⟨lower, ?_⟩
  cases below with
  | nil => simp [regions_eq] at hregions
  | cons f below =>
    rw [regions_eq, List.cons_append, List.cons.injEq] at hregions
    rw [← hregions.2]
    simp [regions_eq, commit, Frame.record, Frame.countBrace_of_isBrace hkind]

theorem Above.swap {region' : Region} (h : s.Above (region' :: inner) braces)
    (hkind : kind.isBrace = false) (region : Region) :
    (s.commit (.swap region) kind).Above (region :: inner) braces := by
  obtain ⟨lower, hregions⟩ := h
  rw [regions_eq, List.cons_append, List.cons.injEq] at hregions
  refine ⟨lower, ?_⟩
  rw [List.cons_append, ← hregions.2]
  simp [regions_eq, commit, Frame.enter, Frame.record, Frame.countBrace_of_isBrace hkind]

/-- The innermost region is the first of `inner`, or the interpolation itself. -/
theorem Above.top_eq (h : s.Above inner braces) :
    s.top.region = inner.headD (.interpolation braces) := by
  obtain ⟨lower, hregions⟩ := h
  rw [regions_eq] at hregions
  cases inner <;> exact (List.cons.inj hregions).1

/-- A brace that is read right in the interpolation is counted. -/
theorem Above.count (h : s.Above [] braces) {braces' : Nat}
    (hcount : Frame.countBrace kind (.interpolation braces) = .interpolation braces') :
    (s.commit .stay kind).Above [] braces' := by
  obtain ⟨lower, hregions⟩ := h
  rw [regions_eq, List.nil_append, List.cons.injEq] at hregions
  refine ⟨lower, ?_⟩
  rw [List.nil_append, ← hregions.2, ← hcount, ← hregions.1]
  rfl

/-- A brace that is read further inside is counted there, if at all. -/
theorem Above.countInside (h : s.Above (region :: inner) braces) :
    (s.commit .stay kind).Above (Frame.countBrace kind region :: inner) braces := by
  obtain ⟨lower, hregions⟩ := h
  rw [regions_eq, List.cons_append, List.cons.injEq] at hregions
  refine ⟨lower, ?_⟩
  rw [List.cons_append, ← hregions.2, ← hregions.1]
  rfl

end Stack

/-! ### What one token does -/

section Token

variable {s : Stack} {inner inner' : List Region} {braces n depth : Nat} {k : Kind}
  {ks : List Kind} {region : Region} {shift : Shift}

theorem Kind.isShield_eq_false (h : k.delimits = false) : k.isShield = false := by
  revert h
  cases k <;> simp [delimits, isShield]

theorem outside_of_isShield (h : k.isShield = false) :
    outside shields depth (k :: ks)
      = if depth = 0 then k :: outside shields 0 ks else outside shields depth ks := by
  rw [outside, if_neg, if_neg]
  · rintro hany
    simp only [shields, List.any_cons, List.any_nil, Bool.or_false, Bool.or_eq_true,
      decide_eq_true_eq] at hany
    rcases hany with rfl | rfl <;> cases h
  · rintro hany
    simp only [shields, List.any_cons, List.any_nil, Bool.or_false, Bool.or_eq_true,
      decide_eq_true_eq] at hany
    rcases hany with rfl | rfl <;> cases h

theorem level_interpolation_of_isShield (h : k.isShield = false) :
    Bracket.interpolation.level n (k :: ks) = Bracket.interpolation.level n ks := by
  refine Bracket.level_other n ks ?_ ?_
  · rintro rfl
    cases h
  · rintro rfl
    cases h

theorem level_brace_of_isBrace (h : k.isBrace = false) :
    Bracket.brace.level n (k :: ks) = Bracket.brace.level n ks := by
  refine Bracket.level_other n ks ?_ ?_
  · rintro rfl
    cases h
  · rintro rfl
    cases h

/-- The number of braces that are open in an interpolation behind the kinds, if `braces` are open in
front of them, and `depth` brackets that keep braces out of the count. -/
def bracesBehind (braces depth : Nat) (ks : List Kind) : Option Nat :=
  Bracket.brace.level braces (outside shields depth ks)

theorem bracesBehind_neutral (hshield : k.isShield = false) (hbrace : k.isBrace = false) :
    bracesBehind braces depth (k :: ks) = bracesBehind braces depth ks := by
  rw [bracesBehind, outside_of_isShield hshield]
  split
  · rename_i hdepth
    rw [level_brace_of_isBrace hbrace, hdepth]
    rfl
  · rfl

theorem bracesBehind_inside (hshield : k.isShield = false) :
    bracesBehind braces (depth + 1) (k :: ks) = bracesBehind braces (depth + 1) ks := by
  rw [bracesBehind, outside_of_isShield hshield]
  rfl

/-- From what is open above an interpolation, the kinds `ks` lead to `interpolations` open
interpolations above it and to `braces` open braces in it. The last two do not change while the
kinds are read. -/
def Stack.Counted (s : Stack) (ks : List Kind) (interpolations : Nat) (braces : Option Nat) :
    Prop :=
  ∃ inner n, s.Above inner n
    ∧ Bracket.interpolation.level (inner.countP Region.isInterpolation) ks = some interpolations
    ∧ bracesBehind n (inner.countP Region.isShielded) ks = braces

theorem Frame.isShielded_countBrace (k : Kind) (region : Region) :
    (countBrace k region).isShielded = region.isShielded
      ∧ (countBrace k region).isInterpolation = region.isInterpolation := by
  cases region with
  | interpolation braces =>
    rw [countBrace.eq_def]
    simp only
    split <;> exact ⟨rfl, rfl⟩
  | statements | quoted _ | heredocLine _ | heredocBody _ => exact ⟨rfl, rfl⟩

/-- A brace that closes nothing would end the interpolation, so it is not read as a brace. -/
theorem exists_countBrace (n : Nat) (ks : List Kind) (hk : k.isBrace)
    (hright : k = .punctuator .rightBrace → n ≠ 0) :
    ∃ n', Frame.countBrace k (.interpolation n) = .interpolation n'
      ∧ bracesBehind n 0 (k :: ks) = bracesBehind n' 0 ks := by
  rw [Kind.isBrace.eq_def] at hk
  split at hk
  · exact ⟨n + 1, rfl, rfl⟩
  · exact ⟨n - 1, rfl, if_neg (hright rfl)⟩
  · cases hk

variable {interpolations : Nat} {total : Option Nat}

/-- A token that is no bracket and stays counts for nothing. -/
theorem Stack.Counted.stay (h : s.Counted (k :: ks) interpolations total)
    (hshield : k.isShield = false) (hbrace : k.isBrace = false) :
    (s.commit .stay k).Counted ks interpolations total := by
  obtain ⟨inner, n, habove, hlevel, hbraces⟩ := h
  rw [level_interpolation_of_isShield hshield] at hlevel
  rw [bracesBehind_neutral hshield hbrace] at hbraces
  exact ⟨inner, n, habove.stay hbrace, hlevel, hbraces⟩

/-- A brace counts for the interpolation it is read in. -/
theorem Stack.Counted.brace (h : s.Counted (k :: ks) interpolations total) (hk : k.isBrace)
    (hstatements : s.top.region.holdsStatements)
    (hright : k = .punctuator .rightBrace → s.top.region ≠ .interpolation 0) :
    (s.commit .stay k).Counted ks interpolations total := by
  obtain ⟨inner, n, habove, hlevel, hbraces⟩ := h
  have hshield : k.isShield = false := by
    revert hk
    cases k <;> simp [Kind.isBrace, Kind.isShield]
  have htop := habove.top_eq
  rw [level_interpolation_of_isShield hshield] at hlevel
  cases inner with
  | nil =>
    obtain ⟨n', hcount, hbehind⟩ := exists_countBrace n ks hk fun hr hn => by
      subst hn
      exact hright hr htop
    exact ⟨[], n', habove.count hcount, hlevel, hbehind ▸ hbraces⟩
  | cons region inner =>
    -- Further inside, a brace is read in a frame that keeps it out of the count.
    obtain ⟨hshielded, hinterpolation⟩ := Frame.isShielded_countBrace k region
    have hregion : region.isShielded := by
      rw [show s.top.region = region from htop] at hstatements
      cases region <;> trivial
    rw [List.countP_cons_of_pos hregion, bracesBehind_inside hshield] at hbraces
    refine ⟨_, n, habove.countInside, ?_, ?_⟩
    · rwa [List.countP_cons, hinterpolation, ← List.countP_cons]
    · rwa [List.countP_cons_of_pos (hshielded.trans hregion)]

/-- **A token counts for what its kind says.** -/
theorem Effect.counted (h : Effect s.top.region k shift)
    (hs : s.Counted (k :: ks) interpolations total)
    (hstatements : k.isBrace → s.top.region.holdsStatements)
    (hright : k = .punctuator .rightBrace → s.top.region ≠ .interpolation 0) :
    (s.commit shift k).Counted ks interpolations total := by
  have hs' := hs
  obtain ⟨inner, n, habove, hlevel, hbraces⟩ := hs'
  have htop := habove.top_eq
  generalize hregion : s.top.region = region at h
  rw [hregion] at htop
  cases h with
  | inside hkind =>
    cases hbrace : k.isBrace with
    | true => exact hs.brace hbrace (hstatements hbrace) hright
    | false => exact hs.stay (Kind.isShield_eq_false hkind) hbrace
  | wholeString _ | resumesString | resumesBody _ => exact hs.stay rfl rfl
  | opensString _ =>
    rw [level_interpolation_of_isShield rfl] at hlevel
    rw [bracesBehind_neutral rfl rfl] at hbraces
    exact ⟨_, n, habove.push rfl _, hlevel, hbraces⟩
  | opensHeredoc _ =>
    rw [Bracket.level_other _ ks (by decide) (by decide)] at hlevel
    refine ⟨_, n, habove.push rfl _, hlevel, ?_⟩
    rwa [List.countP_cons_of_pos rfl]
  | opensInterpolation _ =>
    refine ⟨_, n, habove.push rfl _, ?_, ?_⟩
    · rwa [List.countP_cons_of_pos rfl]
    · rwa [List.countP_cons_of_pos rfl]
  | closesString =>
    cases inner with
    | nil => cases htop
    | cons region inner =>
      cases htop
      rw [level_interpolation_of_isShield rfl] at hlevel
      rw [bracesBehind_neutral rfl rfl] at hbraces
      exact ⟨inner, n, habove.pop rfl, hlevel, hbraces⟩
  | closesBody =>
    cases inner with
    | nil => cases htop
    | cons region inner =>
      cases htop
      rw [Bracket.level_other _ ks (by decide) (by decide)] at hlevel
      rw [List.countP_cons_of_pos rfl] at hbraces
      exact ⟨inner, n, habove.pop rfl, hlevel, hbraces⟩
  | closesInterpolation =>
    cases inner with
    | nil => cases hlevel
    | cons region inner =>
      cases htop
      rw [List.countP_cons_of_pos rfl] at hlevel hbraces
      exact ⟨inner, n, habove.pop rfl, hlevel, hbraces⟩
  | beginsBody =>
    cases inner with
    | nil => cases htop
    | cons region inner =>
      cases htop
      rw [level_interpolation_of_isShield rfl] at hlevel
      rw [bracesBehind_neutral rfl rfl] at hbraces
      exact ⟨_, n, habove.swap rfl _, hlevel, hbraces⟩

end Token

/-! ### Where braces are read -/

/-- A lexeme that is read as a punctuator is the one that begins the bytes. -/
theorem Reading.punctuator_of_ofLexeme {lexeme : Lexeme} {bytes : List Byte} {t : Tape}
    {r : Reading} {p : Punctuator} (hplain : lexeme.Plain bytes) (h : ofLexeme lexeme t = .ok r)
    (hkind : r.token.kind = .punctuator p) : Punctuator.read? bytes = some p := by
  cases lexeme with
  | bare kind length =>
    cases h
    exact hplain.2 p hkind
  | spelled kind length =>
    obtain ⟨span, rfl⟩ := exists_of_spelled h
    obtain rfl : kind = .punctuator p := hkind
    cases hplain.2
  | quoted isVerbatim close opener =>
    have hrewritten := isRewritten_ofLexeme_quoted h
    rw [hkind] at hrewritten
    cases hrewritten
  | heredoc opener =>
    obtain ⟨identifier, -, h⟩ := exists_of_bind_eq_ok h
    obtain ⟨span, rfl⟩ := exists_of_spelled h
    cases hkind
  | malformed cause length shown =>
    cases shown with
    | true =>
      obtain ⟨span, rfl⟩ := exists_of_spelled h
      cases hkind
    | false =>
      cases h
      cases hkind

/-- **Punctuators are read where statements are.** One that is read begins the bytes, and a right
brace that would end an interpolation is not read as one. -/
theorem Lexer.punctuator_of_read {f : Frame} {b : Byte} {rest : List Byte} {t : Tape} {r : Reading}
    {p : Punctuator} (h : read f b rest t = .ok r) (hkind : r.token.kind = .punctuator p) :
    f.region.holdsStatements ∧ Punctuator.read? (b :: rest) = some p
      ∧ (f.region = .interpolation 0 → b ≠ Byte.ofChar '\x7d') := by
  have hlexical : r.token.kind.needsNoLexeme = false := by
    rw [hkind]
    rfl
  obtain ⟨hregion, hopen, hstatement⟩ := statement_of_read h hlexical
  exact ⟨hregion, Reading.punctuator_of_ofLexeme (Lexeme.plain_read ..) hstatement hkind, hopen⟩

theorem Punctuator.head_of_rightBrace {b : Byte} {rest : List Byte}
    (h : read? (b :: rest) = some .rightBrace) : b = Byte.ofChar '\x7d' := by
  obtain ⟨tail, htail⟩ := bytes_prefix_of_read? h
  exact (List.cons.inj htail).1.symm

/-! ### What any number of calls do -/

namespace Lexer

variable {source : List Byte} {l l' : Lexer} {token : Token} {ks : List Kind} {interpolations : Nat}
  {total : Option Nat}

theorem regions_settle (l : Lexer) : l.settle.stack.regions = l.stack.regions := by
  obtain ⟨lookback, hstack⟩ := exists_settle_stack l
  rw [hstack]
  rfl

/-- **A call counts for what the kind of its token says.** -/
theorem counted_next (hs : l.stack.Counted (token.kind :: ks) interpolations total)
    (hnext : l.next = .ok (token, l')) : l'.stack.Counted ks interpolations total := by
  have hsettled : l.settle.stack.Counted (token.kind :: ks) interpolations total := by
    simpa only [Stack.Counted, Stack.Above, regions_settle] using hs
  rcases next_cases hnext with ⟨-, rfl, rfl⟩ | ⟨b, rest, r, hrest, hr, rfl, rfl⟩
  · rw [finish_stack]
    obtain ⟨inner, n, habove, hlevel, hbraces⟩ := hsettled
    exact ⟨inner, n, habove, hlevel,
      (bracesBehind_neutral (k := .endOfInput) rfl rfl).symm.trans hbraces⟩
  · refine (nests_read hr).effect.counted hsettled (fun hbrace => ?_) fun hright hregion => ?_
    · obtain ⟨p, hp⟩ : ∃ p, r.token.kind = .punctuator p := by
        revert hbrace
        cases r.token.kind <;> simp [Kind.isBrace]
      exact (punctuator_of_read hr hp).1
    · obtain ⟨-, hread, hne⟩ := punctuator_of_read hr hright
      exact hne hregion (Punctuator.head_of_rightBrace hread)

theorem counted_calls {n : Nat} {tokens : List Token}
    (hs : l.stack.Counted (tokens.map (·.kind)) interpolations total)
    (hcalls : calls next n l = .ok (tokens, l')) : l'.stack.Counted [] interpolations total := by
  induction n generalizing l tokens with
  | zero =>
    cases hcalls
    exact hs
  | succ n ih =>
    obtain ⟨token, m, later, hnext, hlater, rfl⟩ := exists_of_calls_succ hcalls
    exact ih (counted_next hs hnext) hlater

/-- Behind the token that opens an interpolation, everything is to be counted. -/
theorem counted_of_insertBegin (hnext : l.next = .ok (token, l'))
    (hkind : token.kind = .insertBegin)
    (hks : Bracket.interpolation.level 0 ks = some interpolations) :
    l'.stack.Counted ks interpolations (bracesBehind 0 0 ks) := by
  rcases next_cases hnext with ⟨-, rfl, -⟩ | ⟨b, rest, r, -, hr, rfl, rfl⟩
  · cases hkind
  · have heffect := (nests_read hr).effect
    rw [hkind] at heffect ⊢
    generalize r.shift = shift at heffect ⊢
    generalize l.settle.stack.top.region = region at heffect
    cases heffect with
    | inside hdelimits => cases hdelimits
    | opensInterpolation _ => exact ⟨[], 0, ⟨_, rfl⟩, hks, rfl⟩

/-- In front of the token that closes an interpolation, no brace is open in it. -/
theorem total_of_insertEnd (hs : l.stack.Counted [] 0 total) (hnext : l.next = .ok (token, l'))
    (hkind : token.kind = .insertEnd) : total = some 0 := by
  rcases next_cases hnext with ⟨-, rfl, -⟩ | ⟨b, rest, r, -, hr, rfl, -⟩
  · cases hkind
  · have heffect := (nests_read hr).effect
    rw [hkind] at heffect
    obtain ⟨inner, n, ⟨lower, hregions⟩, hlevel, hbraces⟩ := hs
    have habove : l.settle.stack.Above inner n := ⟨lower, (regions_settle l).trans hregions⟩
    have htop := habove.top_eq
    generalize l.settle.stack.top.region = region at heffect htop
    generalize r.shift = shift at heffect
    cases heffect with
    | inside hdelimits => cases hdelimits
    | closesInterpolation =>
      cases inner with
      | nil =>
        cases htop
        exact hbraces.symm
      | cons region inner =>
        obtain rfl : Region.interpolation 0 = region := htop
        rw [List.countP_cons_of_pos rfl] at hlevel
        cases hlevel

/-- **An interpolation ends at its matching brace.** Between the two tokens of an interpolation, the
braces that stand outside of deeper interpolations and of heredocs are balanced. -/
theorem interpolation_braces (source : List Byte) (n : Nat) :
    ∃ tokens l, calls next n (ofBytes source) = .ok (tokens, l)
      ∧ ∀ before between behind,
        tokens.map (·.kind) = before ++ .insertBegin :: (between ++ .insertEnd :: behind) →
        Bracket.interpolation.Balanced between →
        Bracket.brace.Balanced (outside shields 0 between) := by
  obtain ⟨tokens, l, hcalls, -⟩ := exists_calls source n
  refine ⟨tokens, l, hcalls, ?_⟩
  intro before between behind hkinds hbalanced
  obtain ⟨before, tokens, rfl, -, hkinds⟩ := List.map_eq_append_iff.mp hkinds
  obtain ⟨opener, tokens, rfl, hopener, hinside⟩ := List.map_eq_cons_iff.mp hkinds
  obtain ⟨between, tokens, rfl, rfl, houtside⟩ := List.map_eq_append_iff.mp hinside
  obtain ⟨closer, behind, rfl, hcloser, -⟩ := List.map_eq_cons_iff.mp houtside
  obtain ⟨l₁, -, hcalls⟩ := exists_of_calls_append hcalls
  obtain ⟨_, l₂, _, hopen, hcalls, hsplit⟩ := exists_of_calls_succ hcalls
  cases hsplit
  obtain ⟨l₃, hbetween, hcalls⟩ := exists_of_calls_append hcalls
  obtain ⟨_, l₄, _, hclose, -, hsplit⟩ := exists_of_calls_succ hcalls
  cases hsplit
  have hstart := counted_of_insertBegin hopen hopener
    ((Bracket.balanced_iff_level (by decide)).mp hbalanced)
  have hend := total_of_insertEnd (counted_calls hstart hbetween) hclose hcloser
  exact (Bracket.balanced_iff_level (by decide)).mpr hend

/-- A script in which a brace on the line behind a heredoc's opener is closed twice. -/
def heredocLineScript : List Byte :=
  Byte.ofString "\"#\x7b\x7b <<E \x7d\nE\n\x7d\x7d\""

/-- **The line behind the opener of a heredoc is not counted.** If only deeper interpolations are
left out, braces need not be balanced: a right brace on that line closes a left brace in front of
it, and the interpolation waits for another one. -/
theorem heredoc_line_unbalances :
    ¬ ∀ (source : List Byte) tokens l, (ofBytes source).run = .ok (tokens, l) →
      l.diagnostic = none →
      ∀ before between behind,
        tokens.map (·.kind) = before ++ .insertBegin :: (between ++ .insertEnd :: behind) →
        Bracket.interpolation.Balanced between →
        Bracket.brace.Balanced (outside [.interpolation] 0 between) := by
  intro h
  have hrun : (ofBytes heredocLineScript).run.toOption.map
        (fun answer => (answer.1.map (·.kind), answer.2.diagnostic))
      = some ([.stringPart] ++ .insertBegin :: ([.punctuator .leftBrace, .heredocBegin,
          .punctuator .rightBrace, .newLine, .heredocEnd, .newLine, .punctuator .rightBrace]
        ++ .insertEnd :: [.string, .endOfInput]), none) := by
    decide +kernel
  obtain ⟨⟨tokens, l⟩, hanswer, hkinds⟩ := Option.map_eq_some_iff.mp hrun
  obtain ⟨hkinds, hdiagnostic⟩ := Prod.mk.inj hkinds
  have hok : (ofBytes heredocLineScript).run = .ok (tokens, l) := by
    cases hresult : (ofBytes heredocLineScript).run with
    | error e =>
      rw [hresult] at hanswer
      cases hanswer
    | ok answer =>
      rw [hresult] at hanswer
      exact congrArg Except.ok (Option.some.inj hanswer)
  have hbalanced := h _ tokens l hok hdiagnostic _ _ _ hkinds
    ((Bracket.balanced_iff_level (by decide)).mpr (by decide))
  exact absurd hbalanced.total (by decide)

end Lexer

end ScriptLexer
