import ScriptLexer.Proofs.Lexer.Beside
import ScriptLexer.Proofs.Lexer.End
import ScriptLexer.Proofs.Lexer.Findings

/-!
# How much space stands between tokens

Where layout is skipped, a run of spaces and tabs may be replaced by another one. In front of it the
two scripts stand side by side, and so do the outlooks on them. The call that skips the run comes to
the same outlook in both scripts, since a run of blanks is skipped whole; from there on the two are
read alike, and the bytes of the one are as many places further on as its run is longer.

One thing can come between. The body of a heredoc is closed by a line, and an identifier in quotes
may have spaces in it. So a body that goes on over the place with one number of spaces may be closed
there with another, and everything behind is read differently. That is the one exception, and it is
seen in the script with the new spaces: the token that closes a heredoc takes in the place.

## Main definitions

* `Spacing` — a run of spaces and tabs
* `Lexer.SkipsBlanksAt` — a run of blanks is layout
* `Lexer.ClosesHeredocOver` — the token that closes a heredoc takes in a place

## Main results

* `Outlook.skipLayout_spacing` — a run of blanks is skipped whole
* `Outlook.findings_respace` — what is found in two scripts that differ in a run of spaces
* `respacing_moves_offsets` — the run may be replaced
* `respacing_may_close_heredoc` — the exception
-/

namespace ScriptLexer

/-- A run of spaces and tabs, with at least one of them. -/
structure Spacing (w : List Byte) : Prop where
  ne_nil : w ≠ []
  spaces : ∀ b ∈ w, b = 0x20 ∨ b = 0x09

theorem spacing_iff {w : List Byte} :
    Spacing w ↔ w.isEmpty = false ∧ (w.all fun b => b == 0x20 || b == 0x09) = true := by
  constructor
  · rintro ⟨hne, hspaces⟩
    exact ⟨List.isEmpty_eq_false_iff.mpr hne, by simpa using hspaces⟩
  · rintro ⟨hne, hspaces⟩
    exact ⟨List.isEmpty_eq_false_iff.mp hne, by simpa using hspaces⟩

instance (w : List Byte) : Decidable (Spacing w) :=
  decidable_of_iff _ spacing_iff.symm

namespace Spacing

variable {w : List Byte}

theorem isBlank (h : Spacing w) : ∀ b ∈ w, Byte.isBlank b := by
  intro b hb
  rcases h.spaces b hb with rfl | rfl <;> rfl

theorem spaced (h : Spacing w) (q : List Byte) : Spaced (w ++ q) := by
  obtain ⟨b, w, rfl⟩ := List.exists_cons_of_ne_nil h.ne_nil
  rcases h.spaces b List.mem_cons_self with rfl | rfl
  · exact .space _
  · exact .tab _

end Spacing

/-- No line begins behind a blank. -/
theorem Line.startsAfter_of_blank {lineStart : Bool} {bytes : List Byte} (hne : bytes ≠ [])
    (hblank : ∀ b ∈ bytes, Byte.isBlank b) : startsAfter lineStart bytes = false := by
  rw [startsAfter, List.getLast?_eq_some_getLast hne]
  have hlast := hblank _ (List.getLast_mem hne)
  refine beq_eq_false_iff_ne.mpr fun hnewline => ?_
  rw [hnewline] at hlast
  cases hlast

namespace Outlook

variable {o o' o₁ : Outlook} {w w' q : List Byte}

/-- **A run of spaces is skipped whole,** and the blanks behind it with it. -/
theorem skipLayout_spacing (hw : Spacing w) (hrest : o.rest = w ++ q) :
    o.skipLayout = (Outlook.mk (q.drop (q.takeWhile Byte.isBlank).length) false
      ⟨o.top.scene, o.top.lookback.afterGap true⟩ o.below).skipLayout := by
  have hrun : (w ++ q).takeWhile Byte.isBlank = w ++ q.takeWhile Byte.isBlank :=
    List.takeWhile_append_of_pos hw.isBlank
  obtain ⟨b, tail, rfl⟩ := List.exists_cons_of_ne_nil hw.ne_nil
  have hb : Byte.isBlank b := hw.isBlank b List.mem_cons_self
  have hgap : Gap.read? o.lineStart o.rest = some (Gap.blanks (tail ++ q)) := by
    rw [hrest, List.cons_append, Gap.read?, if_pos hb]
  have hlength : (Gap.blanks (tail ++ q)).length
      = ((b :: tail) ++ q.takeWhile Byte.isBlank).length := by
    rw [← hrun, List.cons_append, List.takeWhile_cons_of_pos hb]
    rfl
  have htake : ((b :: tail) ++ q).take ((b :: tail) ++ q.takeWhile Byte.isBlank).length
      = (b :: tail) ++ q.takeWhile Byte.isBlank := by
    rw [← hrun]
    exact (List.prefix_iff_eq_take.mp (List.takeWhile_prefix _)).symm
  have hstart : Line.startsAfter o.lineStart ((b :: tail) ++ q.takeWhile Byte.isBlank) = false := by
    refine Line.startsAfter_of_blank (List.cons_ne_nil _ _) fun c hc => ?_
    rw [← hrun] at hc
    exact List.mem_takeWhile_imp hc
  rw [skipLayout_of_some hgap, pass, advanceBy, withLookback, hrest, hlength, htake, hstart,
    List.length_append, ← List.drop_drop, List.drop_left]
  rfl

/-- **Behind two runs of spaces the same stands ahead,** and what is skipped in front of it differs
by the lengths of the runs. -/
theorem Beside.settle_spacing {front : List Byte} (hw : Spacing w) (hw' : Spacing w')
    (h : Beside front (w ++ q) (w' ++ q) o o') (hholds : o.top.scene.holdsStatements)
    (hskips : o.SkipsTo o₁) (hrest : o₁.rest = w ++ q) :
    o'.settle = o.settle
      ∧ ∃ k, o.gap = front.length + w.length + k ∧ o'.gap = front.length + w'.length + k := by
  obtain ⟨front', o₁', hskips', hbeside⟩ :=
    h.skipsTo (hw.spaced q) (hw'.spaced q) hskips (Nat.le_of_eq (congrArg List.length hrest.symm))
  have hnil : front' = [] := by
    have hlength := hbeside.length_rest
    rw [hrest] at hlength
    exact List.eq_nil_of_length_eq_zero (by omega)
  rw [hnil] at hbeside
  have hrest' : o₁'.rest = w' ++ q := by rw [hbeside.other]; rfl
  have hsame : o'.skipLayout = o.skipLayout := by
    rw [hskips'.skipLayout_eq, hskips.skipLayout_eq, skipLayout_spacing hw hrest,
      skipLayout_spacing hw' hrest', hbeside.other]
  have hscene : o'.top.scene = o.top.scene := by rw [h.other]
  have hbehind : o.skipLayout.rest.length ≤ q.length := by
    rw [hskips.skipLayout_eq, skipLayout_spacing hw hrest]
    refine Nat.le_trans (skipsTo_skipLayout _).length_le ?_
    rw [List.length_drop]
    exact Nat.sub_le _ _
  have hwhole := h.length_rest
  have hwhole' : o'.rest.length = front.length + (w' ++ q).length := by
    rw [h.other, List.length_append]
  rw [List.length_append] at hwhole hwhole'
  refine ⟨by rw [Outlook.settle, Outlook.settle, hscene, if_pos hholds, if_pos hholds, hsame],
    q.length - o.skipLayout.rest.length, ?_, ?_⟩
  · rw [gap, if_pos hholds, hwhole]
    omega
  · rw [gap, hscene, if_pos hholds, hsame, hwhole']
    omega

/-- The calls ahead come to the bytes `x` while they skip layout. -/
inductive Crosses (x : List Byte) : Outlook → Prop
  | here {o o₁ : Outlook} (hholds : o.top.scene.holdsStatements) (hskips : o.SkipsTo o₁)
      (hrest : o₁.rest = x) : Crosses x o
  | later {o : Outlook} (h : Crosses x o.next.2) : Crosses x o

theorem length_settle_le (o : Outlook) : o.settle.rest.length ≤ o.rest.length := by
  rw [settle]
  split
  · rw [honourEndMarker]
    split
    · exact Nat.zero_le _
    · exact o.skipsTo_skipLayout.length_le
  · exact Nat.le_refl _

theorem length_next_le (o : Outlook) : o.next.2.rest.length ≤ o.rest.length :=
  Nat.le_trans o.settle.length_step_le o.length_settle_le

theorem Crosses.length_le {x : List Byte} (h : Crosses x o) : x.length ≤ o.rest.length := by
  induction h with
  | here hholds hskips hrest => exact hrest ▸ hskips.length_le
  | later h ih => exact Nat.le_trans ih (length_next_le _)

theorem Crosses.of_after {x : List Byte} {n : Nat} (h : Crosses x (o.after n)) : Crosses x o := by
  induction n generalizing o with
  | zero => exact h
  | succ n ih => exact .later (ih h)

end Outlook

/-! ### Offsets -/

/-- Where an offset comes to if `old` bytes at a place give way to `new` bytes. -/
def respace (place old new i : Nat) : Nat :=
  if i < place then i else i - old + new

theorem respace_of_lt {place old new i : Nat} (h : i < place) : respace place old new i = i :=
  if_pos h

theorem respace_add (place old new i : Nat) :
    respace place old new (place + old + i) = place + new + i := by
  rw [respace, if_neg (by omega)]
  omega

/-- The diagnostic at the offset that its own comes to. -/
def Diagnostic.moveBy (f : Nat → Nat) (d : Diagnostic) : Diagnostic :=
  ⟨f d.pos, d.cause⟩

/-- What is found at the offsets that its own come to. -/
def Finding.moveBy (f : Nat → Nat) (found : Finding) : Finding :=
  { found with pos := f found.pos, diagnostic := found.diagnostic.map (·.moveBy f) }

namespace Outlook

variable {o o' o₁ : Outlook} {f : Nat → Nat} {pos pos' n : Nat}

/-- Two outlooks in which a call finds the same, at offsets of which one comes to the other. -/
theorem find_moved (hsame : o'.next.1 = o.next.1) (hpos : f (pos + o.gap) = pos' + o'.gap)
    (hfault : ∀ d, o.next.1.fault = some d → f (pos + o.gap + d.pos) = pos' + o'.gap + d.pos) :
    o'.find pos' = (o.find pos).moveBy f := by
  have hdiagnostic : (o.next.1.fault.map (·.shift (pos + o.gap))).map (·.moveBy f)
      = o.next.1.fault.map (·.shift (pos' + o'.gap)) := by
    cases hd : o.next.1.fault with
    | none => rfl
    | some d => exact congrArg (fun i => some (Diagnostic.mk i d.cause)) (hfault d hd)
  rw [find, find, Finding.moveBy, hsame, hpos, hdiagnostic]

/-- The same outlook at another offset. -/
theorem findings_moved (hf : ∀ i, f (pos + i) = pos' + i) (n : Nat) (o : Outlook) :
    o.findings n pos' = (o.findings n pos).map (·.moveBy f) := by
  induction n generalizing pos pos' o with
  | zero => rfl
  | succ n ih =>
    have hfind : o.find pos' = (o.find pos).moveBy f := by
      refine find_moved rfl (hf _) fun d _ => ?_
      rw [Nat.add_assoc, Nat.add_assoc]
      exact hf _
    rw [findings, findings, List.map_cons, hfind]
    refine congrArg _ (ih (fun i => ?_) _)
    show f (pos + o.gap + o.next.1.length + i) = f (pos + o.gap) + o.next.1.length + i
    rw [hf, Nat.add_assoc, Nat.add_assoc, hf]
    omega

/-- A call that ends in front of the place finds what comes to itself. -/
theorem find_respace_of_le {place old new : Nat} (hsame : o'.next.1 = o.next.1)
    (hgap : o'.gap = o.gap) (hlt : pos + o.gap < place)
    (hends : pos + o.gap + o.next.1.length ≤ place) :
    o'.find pos = (o.find pos).moveBy (respace place old new) := by
  refine find_moved hsame ?_ fun d hd => ?_
  · rw [hgap]
    exact respace_of_lt hlt
  · rw [hgap]
    refine respace_of_lt ?_
    rcases fault_next hd with hzero | hinside <;> omega

/-- Behind the run everything comes to where the runs differ. -/
theorem findings_crossed {front w w' q : List Byte} (hw : Spacing w) (hw' : Spacing w')
    (h : Beside front (w ++ q) (w' ++ q) o o') (hholds : o.top.scene.holdsStatements)
    (hskips : o.SkipsTo o₁) (hrest : o₁.rest = w ++ q) (n : Nat) :
    o'.findings n pos
      = (o.findings n pos).map (·.moveBy (respace (pos + front.length) w.length w'.length)) := by
  obtain ⟨hsettle, k, hgap, hgap'⟩ := h.settle_spacing hw hw' hholds hskips hrest
  have hnext : o'.next = o.next := by rw [next, next, hsettle]
  have hmoved : ∀ i, respace (pos + front.length) w.length w'.length (pos + o.gap + i)
      = pos + o'.gap + i := by
    intro i
    have hadd := respace_add (pos + front.length) w.length w'.length (k + i)
    rw [show pos + o.gap + i = pos + front.length + w.length + (k + i) by omega, hadd]
    omega
  cases n with
  | zero => rfl
  | succ n =>
    have hfind := find_moved (congrArg Prod.fst hnext) (hmoved 0) fun d _ => hmoved d.pos
    rw [findings, findings, List.map_cons, hfind, hnext]
    refine congrArg _ (findings_moved (fun i => ?_) n _)
    show respace _ _ _ (pos + o.gap + o.next.1.length + i) = _ + o.next.1.length + i
    rw [Nat.add_assoc (pos + o.gap), hmoved]
    show _ = respace _ _ _ (pos + o.gap + 0) + _ + i
    rw [hmoved]
    omega

/-- No token that closes a heredoc is found to take in a place. -/
def ClosesNoneOver (place pos : Nat) (o : Outlook) : Prop :=
  ∀ n, ∀ found ∈ o.findings n pos, found.kind = .heredocEnd → found.pos ≤ place →
    found.pos + found.length ≤ place

theorem ClosesNoneOver.next {place : Nat} (h : ClosesNoneOver place pos o) :
    ClosesNoneOver place ((o.find pos).pos + (o.find pos).length) o.next.2 := by
  intro n found hmem
  exact h (n + 1) found (List.mem_cons_of_mem _ hmem)

/-- **What is found in two scripts that differ in a run of spaces** is the same, if the run is
layout in the one, and no heredoc is closed over it in the other. -/
theorem findings_respace {front w w' q : List Byte} {place : Nat} (hw : Spacing w)
    (hw' : Spacing w') (hcrosses : Crosses (w ++ q) o)
    (h : Beside front (w ++ q) (w' ++ q) o o') (hplace : pos + front.length = place)
    (hclear : ClosesNoneOver place pos o') (n : Nat) :
    o'.findings n pos
      = (o.findings n pos).map (·.moveBy (respace place w.length w'.length)) := by
  induction hcrosses generalizing front o' pos n with
  | here hholds hskips hrest =>
    rw [← hplace]
    exact findings_crossed hw hw' h hholds hskips hrest n
  | @later o hcrosses ih =>
    obtain ⟨hgap, hlt, hfound⟩ := h.next (hw.spaced q) (hw'.spaced q) hcrosses.length_le
    rcases hfound with ⟨hsame, front', hbeside, hlength⟩ | ⟨hkind, hfar⟩
    · cases n with
      | zero => rfl
      | succ n =>
        have hfind : o'.find pos
            = (o.find pos).moveBy (respace place w.length w'.length) :=
          find_respace_of_le hsame hgap (by omega) (by omega)
        have hends : (o'.find pos).pos + (o'.find pos).length
            = (o.find pos).pos + (o.find pos).length := by
          show pos + o'.gap + o'.next.1.length = _
          rw [hgap, hsame]
          rfl
        have hplace' : (o.find pos).pos + (o.find pos).length + front'.length = place := by
          show pos + o.gap + o.next.1.length + front'.length = _
          omega
        have hbehind := hclear.next
        rw [hends] at hbehind
        rw [findings, findings, List.map_cons, hends, hfind, ih hbeside hplace' hbehind n]
    · -- The heredoc would be closed over the place.
      have hover := hclear 1 (o'.find pos) (List.mem_singleton_self _) hkind
        (by show pos + o'.gap ≤ _; omega)
      exact absurd hover (Nat.not_le.mpr (by show _ < pos + o'.gap + o'.next.1.length; omega))

end Outlook

/-! ### Scripts -/

/-- Skipping layout on a tape comes to another tape. -/
inductive Tape.SkipsTo : Tape → Tape → Prop
  | here (t : Tape) : SkipsTo t t
  | behind {t t' : Tape} {g : Gap} (hg : Gap.read? (t.isLineStart t.pos) t.rest = some g)
      (h : SkipsTo (t.advanceBy g.length) t') : SkipsTo t t'

namespace Lexer

/-- The lexer of a script, called again and again, comes to a run of blanks at an offset where it
skips layout. -/
def SkipsBlanksAt (source : List Byte) (place : Nat) : Prop :=
  ∃ n tokens l t, calls next n (ofBytes source) = .ok (tokens, l)
    ∧ l.stack.top.region.holdsStatements ∧ l.tape.SkipsTo t
    ∧ t.pos = place ∧ t.rest.head?.any Byte.isBlank

/-- The lexer of a script, called again and again, answers with a token that closes a heredoc and
takes in an offset. -/
def ClosesHeredocOver (source : List Byte) (place : Nat) : Prop :=
  ∃ n tokens l token l', calls next n (ofBytes source) = .ok (tokens, l)
    ∧ l.next = .ok (token, l') ∧ token.kind = .heredocEnd ∧ token.pos ≤ place ∧ place < l'.pos

variable {source : List Byte} {l : Lexer} {t t' : Tape}

/-- A run of blanks is layout that stands behind a token of a statement. -/
theorem skipsBlanksAt_of_calls {place : Nat} (n : Nat)
    (h : ((calls next n (ofBytes source)).toOption.map fun answer =>
        (answer.2.stack.top.region.holdsStatements, answer.2.pos,
          answer.2.tape.rest.head?.any Byte.isBlank)) = some (true, place, true)) :
    SkipsBlanksAt source place := by
  cases hcalls : calls next n (ofBytes source) with
  | error e =>
    rw [hcalls] at h
    cases h
  | ok answer =>
    rw [hcalls] at h
    obtain ⟨hholds, h⟩ := Prod.mk.inj (Option.some.inj h)
    obtain ⟨hplace, hblank⟩ := Prod.mk.inj h
    exact ⟨n, answer.1, answer.2, answer.2.tape, hcalls, hholds, .here _, hplace, hblank⟩

/-- Layout that is skipped on a tape is skipped ahead of the outlook. -/
theorem outlook_skipsTo (h : t.SkipsTo t') (s : Stack) :
    ∃ s', (outlook source ⟨t, s⟩).SkipsTo (outlook source ⟨t', s'⟩) := by
  induction h generalizing s with
  | here t => exact ⟨s, .here _⟩
  | @behind t t' g hg h ih =>
    obtain ⟨s', hskips⟩ := ih (s.withLookback (s.top.lookback.afterGap g.separates))
    refine ⟨s', .behind hg ?_⟩
    rw [outlook_onward (Tape.onward_advanceBy ⟨0, 0⟩ (Gap.length_le_of_read? hg))] at hskips
    exact hskips

theorem reads_of_skipsTo (h : t.SkipsTo t') (ht : t.Reads source) : t'.Reads source := by
  induction h with
  | here t => exact ht
  | behind hg h ih =>
    exact ih (ht.onward (Tape.onward_advanceBy ⟨0, 0⟩ (Gap.length_le_of_read? hg)))

/-- A run of blanks that is layout is come to by the calls ahead. -/
theorem crosses_of_skipsBlanksAt {place : Nat} (h : SkipsBlanksAt source place) :
    Outlook.Crosses (source.drop place) (.start source) := by
  obtain ⟨n, tokens, l, t, hcalls, hholds, hskips, rfl, hblank⟩ := h
  have hl := (sound_ofBytes source).of_calls hcalls
  have ht := reads_of_skipsTo hskips hl.reads.tape
  have hrest : t.rest = source.drop t.pos := by
    rw [← ht.ahead]
    by_cases hbeyond : t.beyond = []
    · rw [hbeyond, List.append_nil]
    · rw [(ht.ended hbeyond).1] at hblank
      cases hblank
  obtain ⟨s, hoverall⟩ := outlook_skipsTo hskips l.stack
  refine Outlook.Crosses.of_after (n := n) ?_
  rw [← outlook_ofBytes, ← (sound_ofBytes source).outlook_of_calls hcalls]
  refine .here ?_ hoverall hrest
  exact (Region.holdsStatements_scene source _).trans hholds

end Lexer

/-- **How much space stands between tokens does not matter.** Where a script has a run of spaces and
tabs that is skipped as layout, any other such run may stand instead: the script then has tokens of
the same kinds with the same literals, and the same is reported. Offsets in front of the run are the
same, and all others are moved by as much as the new run is longer. The one exception is a script in
which, with the new run, the token that closes a heredoc takes in the place of the run. -/
theorem respacing_moves_offsets {p w w' q : List Byte} (hw : Spacing w) (hw' : Spacing w')
    (hskips : Lexer.SkipsBlanksAt (p ++ w ++ q) p.length)
    (hclear : ¬ Lexer.ClosesHeredocOver (p ++ w' ++ q) p.length) :
    ∃ a b, lexBytes (p ++ w ++ q) = .ok a ∧ lexBytes (p ++ w' ++ q) = .ok b
      ∧ b.tokens.map (fun token => (token.pos, token.kind, b.literal? token))
        = a.tokens.map (fun token =>
          (respace p.length w.length w'.length token.pos, token.kind, a.literal? token))
      ∧ b.diagnostic
        = a.diagnostic.map (·.moveBy (respace p.length w.length w'.length)) := by
  have hbeside : Outlook.Beside p (w ++ q) (w' ++ q) (.start (p ++ w ++ q))
      (.start (p ++ w' ++ q)) :=
    ⟨List.append_assoc p w q, by rw [Outlook.start, Outlook.start, List.append_assoc p w' q]⟩
  have hcrosses := Lexer.crosses_of_skipsBlanksAt hskips
  rw [List.append_assoc, List.drop_left, ← List.append_assoc] at hcrosses
  have hover : Outlook.ClosesNoneOver p.length 0 (.start (p ++ w' ++ q)) := by
    intro n found hmem hkind hbegins
    obtain ⟨k, tokens, l, token, l', hcalls, hnext, hpos, htoken, hends⟩ :=
      (Lexer.sound_ofBytes (p ++ w' ++ q)).call_of_finding hmem
    rw [← hends]
    refine Nat.le_of_not_lt fun hlt => hclear ?_
    exact ⟨k, tokens, l, token, l', hcalls, hnext, htoken.trans hkind, hpos ▸ hbegins, hlt⟩
  have hfindings := Outlook.findings_respace hw hw' hcrosses hbeside (Nat.zero_add _) hover
  have hkinds : ∀ n, ((Outlook.start (p ++ w' ++ q)).findings n 0).map (·.kind)
      = ((Outlook.start (p ++ w ++ q)).findings n 0).map (·.kind) := by
    intro n
    rw [hfindings n, List.map_map]
    rfl
  obtain ⟨a, b, n, ha, hb, hashows, hbshows⟩ := lexBytes_of_kinds hkinds
  rw [hfindings n] at hbshows
  refine ⟨a, b, ha, hb, ?_, ?_⟩
  · have htokens := congrArg
      (List.map fun shown => (respace p.length w.length w'.length shown.1, shown.2)) hashows.tokens
    rw [List.map_map, List.map_map] at htokens
    rw [hbshows.tokens, List.map_map]
    exact htokens.symm
  · rw [hbshows.diagnostic, hashows.diagnostic, List.findSome?_map, List.map_findSome?]
    rfl

/-- In a script with a heredoc, the space behind the heredoc's opener may be another one. -/
theorem respacing_moves_offsets_behind_opener :
    let p := Byte.ofString "<<E"
    let w := Byte.ofString " "
    let w' := Byte.ofString "\t  "
    let q := Byte.ofString "+ 1\n a b\nE\n"
    ∃ a b, lexBytes (p ++ w ++ q) = .ok a ∧ lexBytes (p ++ w' ++ q) = .ok b
      ∧ b.tokens.map (fun token => (token.pos, token.kind, b.literal? token))
        = a.tokens.map (fun token => (respace 3 1 3 token.pos, token.kind, a.literal? token))
      ∧ b.diagnostic = a.diagnostic.map (·.moveBy (respace 3 1 3)) := by
  intro p w w' q
  have hskips : Lexer.SkipsBlanksAt (p ++ w ++ q) p.length :=
    Lexer.skipsBlanksAt_of_calls 1 (by decide +kernel)
  have hclear : ¬ Lexer.ClosesHeredocOver (p ++ w' ++ q) p.length := by
    rintro ⟨n, tokens, l, token, l', hcalls, hnext, hkind, hbegins, -⟩
    have hrun : (lexBytes (p ++ w' ++ q)).toOption.map
        (·.tokens.all fun token => token.kind != .heredocEnd || decide (3 < token.pos))
        = some true := by decide +kernel
    cases hlex : lexBytes (p ++ w' ++ q) with
    | error e =>
      rw [hlex] at hrun
      cases hrun
    | ok lexed =>
      have hmem := Lexer.mem_tokens_of_next hlex hcalls hnext (by rw [hkind]; decide)
      rw [hlex] at hrun
      have hall := List.all_eq_true.mp (Option.some.inj hrun) token hmem
      rw [hkind] at hall
      exact absurd hbegins (Nat.not_le.mpr (of_decide_eq_true hall))
  exact respacing_moves_offsets (by decide) (by decide) hskips hclear

/-- **Another number of spaces may close a heredoc.** The identifier of this heredoc is
`x#{a  b}`, with two spaces. The first line of its body has one space there, so it is text
with an interpolation; with a second space it is the line that ends the heredoc. -/
theorem respacing_may_close_heredoc :
    ¬ ∀ p w w' q : List Byte, Spacing w → Spacing w' →
      Lexer.SkipsBlanksAt (p ++ w ++ q) p.length →
      ∃ a b, lexBytes (p ++ w ++ q) = .ok a ∧ lexBytes (p ++ w' ++ q) = .ok b
        ∧ b.tokens.map (fun token => (token.pos, token.kind, b.literal? token))
          = a.tokens.map (fun token =>
            (respace p.length w.length w'.length token.pos, token.kind, a.literal? token))
        ∧ b.diagnostic
          = a.diagnostic.map (·.moveBy (respace p.length w.length w'.length)) := by
  intro h
  have hskips : Lexer.SkipsBlanksAt
      (Byte.ofString "<<\"x#\x7ba  b\x7d\"\nx#\x7ba" ++ Byte.ofString " "
        ++ Byte.ofString "b\x7d\nx#\x7ba  b\x7d\n")
      (Byte.ofString "<<\"x#\x7ba  b\x7d\"\nx#\x7ba").length :=
    Lexer.skipsBlanksAt_of_calls 5 (by decide +kernel)
  obtain ⟨a, b, ha, hb, htokens, -⟩ :=
    h _ _ (Byte.ofString "  ") _ (by decide) (by decide) hskips
  have hkinds := congrArg (List.map (·.2.1)) htokens
  rw [List.map_map, List.map_map] at hkinds
  have hdiffer : (lexBytes (Byte.ofString "<<\"x#\x7ba  b\x7d\"\nx#\x7ba" ++ Byte.ofString "  "
        ++ Byte.ofString "b\x7d\nx#\x7ba  b\x7d\n")).toOption.map (·.kinds)
      ≠ (lexBytes (Byte.ofString "<<\"x#\x7ba  b\x7d\"\nx#\x7ba" ++ Byte.ofString " "
        ++ Byte.ofString "b\x7d\nx#\x7ba  b\x7d\n")).toOption.map (·.kinds) := by
    decide +kernel
  rw [ha, hb] at hdiffer
  exact hdiffer (congrArg some hkinds)

end ScriptLexer
