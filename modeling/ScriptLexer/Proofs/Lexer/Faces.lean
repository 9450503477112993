import ScriptLexer.Proofs.Lexer.Append

/-!
# Reading what is ahead

To say what a particular text is read as, one follows the calls through it. What a call depends on
is what is unread, the stack, and what has been reported: `Lexer.Faces` gives these of a lexer
between two calls. For each way in which a token can begin there is one lemma, which tells from the
bytes ahead what the call shows of its token and what the lexer faces behind it. Offsets occur in
none of them.

The identifier of a heredoc is kept as a span of the buffer. It is given here by the bytes that the
script has there, which stay what they are (`Heredoc.WaitsFor`).

## Main definitions

* `Lexer.Faces` — what is ahead of a lexer of a script, its stack, and what it has reported
* `Lexer.Shows` — the kind of the next token, and what its literal shows
* `Lexer.Leads` — what is read from a lexer on is read on the way to the end

## Main results

* `Lexer.Faces.skip` — a blank in front of a token may be taken away
* `Lexer.Faces.bare`, `Lexer.Faces.spelled`, `Lexer.Faces.quoted`, … — a call, by what is ahead
-/

namespace ScriptLexer

/-! ### Bytes that begin tokens -/

namespace Byte

/-- Whether a byte is no layout and begins none, and no end marker. -/
def isSolid (b : Byte) : Bool :=
  !isBlank b && b != ofChar '#' && b != ofChar '\\' && b != ofChar '=' && b != ofChar '_'

end Byte

theorem Gap.read?_of_isSolid {b : Byte} (hb : b.isSolid) (lineStart : Bool) (rest : List Byte) :
    read? lineStart (b :: rest) = none := by
  simp only [Byte.isSolid, Bool.and_eq_true, Bool.not_eq_true', bne_iff_ne, ne_eq] at hb
  obtain ⟨⟨⟨⟨hblank, hhash⟩, hbackslash⟩, hequals⟩, -⟩ := hb
  have hword : Line.hasWord BlockComment.opener (b :: rest) = false := by
    rw [Line.hasWord, show BlockComment.opener = Byte.ofChar '=' :: Byte.ofString "begin" from rfl,
      Line.behind?_of_ne hequals]
    rfl
  have hopens : BlockComment.opensAt lineStart (b :: rest) = false := by
    rw [BlockComment.opensAt, hword, Bool.and_false]
  simp [read?, hblank, hhash, hbackslash, hopens]

theorem Line.isEndMarker_of_isSolid {b : Byte} (hb : b.isSolid) (rest : List Byte) :
    isEndMarker (b :: rest) = false := by
  simp only [Byte.isSolid, Bool.and_eq_true, bne_iff_ne, ne_eq] at hb
  rw [isEndMarker, show endMarker = Byte.ofChar '_' :: Byte.ofString "_END__" from rfl,
    behind?_of_ne hb.2]
  rfl

/-- Blanks can be skipped one by one. -/
theorem Tape.skipLayout_blank {t : Tape} {b : Byte} {rest : List Byte} (hb : Byte.isBlank b)
    (hrest : t.rest = b :: rest) (lookback : Lookback) :
    t.skipLayout lookback = (t.advanceBy 1).skipLayout (lookback.afterGap true) := by
  have hread : ∀ {t : Tape} {b rest}, Byte.isBlank b → t.rest = b :: rest → ∀ lookback,
      t.skipLayout lookback = (t.advanceBy (Gap.blanks rest).length).skipLayout
        (lookback.afterGap true) := by
    intro t b rest hb hrest lookback
    refine skipLayout_of_some (g := Gap.blanks rest) ?_
    rw [hrest, Gap.read?, if_pos hb]
  have hahead : (t.advanceBy 1).rest = rest := by
    rw [rest_advanceBy, hrest]
    rfl
  rw [hread hb hrest]
  cases rest with
  | nil => rfl
  | cons c rest =>
    by_cases hc : Byte.isBlank c
    · have hsame : (lookback.afterGap true).afterGap true = lookback.afterGap true := by
        simp [Lookback.afterGap]
      rw [hread hc hahead, advanceBy_advanceBy, hsame]
      simp [Gap.blanks, Gap.length, hc, Nat.add_comm]
    · simp [Gap.blanks, Gap.length, hc]

/-- How the body of a heredoc is read that this line ends. -/
def TerminatorLine.style (isVerbatim : Bool) (close : TerminatorLine) : Style :=
  if isVerbatim then .verbatimLines close else .decodedLines close

/-- The identifier that a heredoc of `source` waits for, and how it waits. -/
structure Heredoc.WaitsFor (source : List Byte) (close : TerminatorLine) (isVerbatim : Bool)
    (heredoc : Heredoc) : Prop where
  identifier : heredoc.identifier.slice? source = some close.identifier
  indented : heredoc.indented = close.indented
  isVerbatim : heredoc.verbatim = isVerbatim

/-- Whether the byte `b` is read as that of a statement in a region. -/
def Region.ReadsStatement (b : Byte) : Region → Prop
  | statements => True
  | interpolation braces => ¬(braces = 0 ∧ b = Byte.ofChar '\x7d')
  | heredocLine _ => b ≠ Byte.newline
  | quoted _ | heredocBody _ => False

/-- Whether a region holds text that an introducer may interrupt. -/
def Region.Interruptible : Region → Prop
  | quoted _ => True
  | heredocBody heredoc => ¬ heredoc.verbatim
  | statements | interpolation _ | heredocLine _ => False

theorem Region.Interruptible.not_holdsStatements {region : Region} (h : region.Interruptible) :
    ¬ region.holdsStatements := by
  cases region with
  | quoted _ | heredocBody _ => exact Bool.false_ne_true
  | statements | interpolation _ | heredocLine _ => cases h

theorem Region.ReadsStatement.holdsStatements {region : Region} {b : Byte}
    (h : region.ReadsStatement b) : region.holdsStatements := by
  cases region with
  | statements | interpolation _ | heredocLine _ => rfl
  | quoted _ | heredocBody _ => cases h

theorem Region.ReadsStatement.of_ne {region : Region} {b : Byte} (hbrace : b ≠ Byte.ofChar '\x7d')
    (hline : b ≠ Byte.newline) (h : region.holdsStatements) : region.ReadsStatement b := by
  cases region with
  | statements => trivial
  | interpolation braces => exact fun hclose => hbrace hclose.2
  | heredocLine heredoc => exact hline
  | quoted _ | heredocBody _ => cases h

namespace Lexer

/-- Where the bytes of statements are read, a statement is. -/
theorem read_eq_statement {f : Frame} {b : Byte} {rest : List Byte} {t : Tape}
    (hregion : f.region.ReadsStatement b) :
    read f b rest t = Reading.statement f.lookback b rest t := by
  obtain ⟨region, lookback⟩ := f
  cases region with
  | statements => rfl
  | interpolation braces => exact if_neg hregion
  | heredocLine heredoc => exact if_neg hregion
  | quoted _ | heredocBody _ => cases hregion

/-! ### What a lexer faces -/

/-- Between two calls the lexer of `source` faces the bytes that are unread, with a stack and with
what has been reported. -/
structure Faces (source bytes : List Byte) (s : Stack) (d : Option Diagnostic) (l : Lexer) :
    Prop where
  sound : l.Sound source
  rest : l.tape.rest = bytes
  beyond : l.tape.beyond = []
  stack : l.stack = s
  diagnostic : l.diagnostic = d

/-- The next token is of a kind, and its literal is shown with it. -/
def Shows (l : Lexer) (kind : Kind) (literal : Option (List Byte)) (l' : Lexer) : Prop :=
  ∃ token, l.scan = .ok ((token, literal), l') ∧ token.kind = kind

/-- The next tokens are of kinds, and their literals are shown with them. -/
def ShowsAll (l : Lexer) (shown : List (Kind × Option (List Byte))) (l' : Lexer) : Prop :=
  ∃ seen, calls scan shown.length l = .ok (seen, l') ∧ seen.map (fun x => (x.1.kind, x.2)) = shown

/-- From `l` on, calls come to the end of the script. The token that stands for it is `eoi`, and
`e` is left behind. -/
def Ends (l : Lexer) (eoi : Token) (e : Lexer) : Prop :=
  ∃ init, calls next (init.length + 1) l = .ok (init ++ [eoi], e)
    ∧ (∀ token ∈ init, token.kind ≠ .endOfInput) ∧ eoi.kind = .endOfInput

/-- The end that comes behind `m` comes behind `l` too. -/
def Leads (l m : Lexer) : Prop :=
  ∀ eoi e, m.Ends eoi e → l.Ends eoi e

variable {source bytes behind text : List Byte} {s : Stack} {d : Option Diagnostic}
  {l l' m : Lexer} {kind : Kind} {literal : Option (List Byte)} {b : Byte} {n : Nat}

/-- A call that shows its literal is a call. -/
theorem next_of_scan {token : Token} (h : l.scan = .ok ((token, literal), l')) :
    l.next = .ok (token, l') := by
  obtain ⟨⟨token', m⟩, hnext, h⟩ := exists_of_bind_eq_ok h
  obtain ⟨literal', -, h⟩ := exists_of_bind_eq_ok h
  cases h
  exact hnext

theorem literal_of_scan {token : Token} (h : l.scan = .ok ((token, literal), l')) :
    l'.literal token = .ok literal := by
  obtain ⟨⟨token', m⟩, -, h⟩ := exists_of_bind_eq_ok h
  obtain ⟨literal', hliteral, h⟩ := exists_of_bind_eq_ok h
  cases h
  exact hliteral

theorem ShowsAll.nil (l : Lexer) : l.ShowsAll [] l :=
  ⟨[], rfl, rfl⟩

theorem Shows.showsAll (h : l.Shows kind literal l') : l.ShowsAll [(kind, literal)] l' := by
  obtain ⟨token, hscan, rfl⟩ := h
  exact ⟨[(token, literal)], calls_cons hscan rfl, rfl⟩

theorem ShowsAll.append {shown later : List (Kind × Option (List Byte))}
    (h : l.ShowsAll shown m) (h' : m.ShowsAll later l') : l.ShowsAll (shown ++ later) l' := by
  obtain ⟨seen, hcalls, rfl⟩ := h
  obtain ⟨seen', hcalls', rfl⟩ := h'
  refine ⟨seen ++ seen', ?_, List.map_append⟩
  rw [List.length_append]
  exact calls_append hcalls hcalls'

theorem Shows.cons {shown : List (Kind × Option (List Byte))} (h : l.Shows kind literal m)
    (h' : m.ShowsAll shown l') : l.ShowsAll ((kind, literal) :: shown) l' :=
  h.showsAll.append h'

/-- A call shows one thing only. -/
theorem Shows.unique {kind' : Kind} {literal' : Option (List Byte)} (h : l.Shows kind literal l')
    (h' : l.Shows kind' literal' m) : kind = kind' ∧ literal = literal' ∧ l' = m := by
  obtain ⟨token, hscan, rfl⟩ := h
  obtain ⟨token', hscan', rfl⟩ := h'
  rw [hscan] at hscan'
  cases hscan'
  exact ⟨rfl, rfl, rfl⟩

/-- What a call shows is shown by any lexer whose next call is the same. -/
theorem Shows.of_next_eq (h : m.Shows kind literal l') (hnext : l.next = m.next) :
    l.Shows kind literal l' := by
  obtain ⟨token, hscan, hkind⟩ := h
  refine ⟨token, ?_, hkind⟩
  rw [scan, hnext]
  exact hscan

theorem Leads.trans {k : Lexer} (h : l.Leads m) (h' : m.Leads k) : l.Leads k :=
  fun eoi e he => h eoi e (h' eoi e he)

theorem Shows.leads (h : l.Shows kind literal m) (hkind : kind ≠ .endOfInput) : l.Leads m := by
  obtain ⟨token, hscan, rfl⟩ := h
  rintro eoi e ⟨init, hcalls, hinit, heoi⟩
  exact ⟨token :: init, calls_cons (next_of_scan hscan) hcalls,
    List.forall_mem_cons.mpr ⟨hkind, hinit⟩, heoi⟩

/-- A lexer leads to where another one leads whose next call is the same. -/
theorem leads_of_next_eq (h : l.next = m.next) : l.Leads m := by
  rintro eoi e ⟨init, hcalls, hends⟩
  refine ⟨init, ?_, hends⟩
  rw [calls, h]
  exact hcalls

/-- The calls of a new lexer that come to the end of its script are a run. -/
theorem Ends.exists_run {eoi : Token} {e : Lexer} (h : (ofBytes source).Ends eoi e) :
    ∃ init, (ofBytes source).run = .ok (init ++ [eoi], e) := by
  obtain ⟨init, hcalls, hinit, heoi⟩ := h
  obtain ⟨m, hbefore, -⟩ := exists_of_calls_append hcalls
  have hbudget := Nat.lt_succ_of_le (length_le_of_calls hbefore hinit)
  exact ⟨init, runFor_of_calls hinit heoi hbudget hcalls⟩

theorem faces_ofBytes (source : List Byte) : (ofBytes source).Faces source source .base none :=
  ⟨sound_ofBytes source, rfl, rfl, rfl, rfl⟩

namespace Faces

theorem pos (h : l.Faces source bytes s d) : l.pos + bytes.length = source.length := by
  have hahead := congrArg List.length h.sound.reads.tape.ahead
  have hle := h.sound.reads.tape.pos_le
  rw [h.rest, h.beyond, List.append_nil, List.length_drop] at hahead
  show l.tape.pos + _ = _
  omega

theorem depth (h : l.Faces source bytes s d) : l.depth = s.depth := by
  rw [Lexer.depth, h.stack]

/-! ### Coming to a token -/

/-- Where no layout begins, the next token is there already. -/
theorem settle_eq (h : l.Faces source (b :: bytes) s d)
    (hb : s.top.region.holdsStatements → b.isSolid) : l.settle = l := by
  by_cases hregion : l.stack.top.region.holdsStatements
  · have hsolid : b.isSolid := hb (h.stack ▸ hregion)
    have hnone : Gap.read? (l.tape.isLineStart l.tape.pos) l.tape.rest = none := by
      rw [h.rest, Gap.read?_of_isSolid hsolid]
    have hmarker : Line.isEndMarker l.tape.rest = false := by
      rw [h.rest, Line.isEndMarker_of_isSolid hsolid]
    rw [settle_of_holdsStatements hregion, Tape.skipLayout_of_none hnone, Tape.honourEndMarker,
      hmarker, Bool.and_false]
    rfl
  · exact if_neg hregion

/-- **A blank in front of a token may be taken away,** if the lookback is told. -/
theorem skip (h : l.Faces source (b :: bytes) s d) (hb : Byte.isBlank b)
    (hregion : s.top.region.holdsStatements) :
    ∃ m : Lexer, m.Faces source bytes (s.withLookback (s.top.lookback.afterGap true)) d
      ∧ l.next = m.next := by
  obtain rfl := h.stack
  let m : Lexer :=
    ⟨l.tape.advanceBy 1, l.stack.withLookback (l.stack.top.lookback.afterGap true)⟩
  have hmove : ∀ span, Tape.Onward 1 span l.tape m.tape := by
    refine fun span => Tape.onward_advanceBy span ?_
    rw [h.rest]
    exact Nat.le_add_left 1 _
  have hle : l.pos ≤ m.pos := by
    show _ ≤ m.tape.pos
    rw [(hmove ⟨0, 0⟩).pos]
    exact Nat.le_add_right _ 1
  have hreads : m.Reads source := by
    refine ⟨h.sound.reads.tape.onward (hmove ⟨0, 0⟩), fun f hf => ?_⟩
    rcases List.mem_cons.mp hf with rfl | hf
    · exact (h.sound.reads.named _ List.mem_cons_self).mono hle
    · exact (h.sound.reads.named f (List.mem_cons_of_mem _ hf)).mono hle
  have hidentified : m.Identified source := by
    intro f hf
    show f.region.Identified source (l.tape.advanceBy 1).buffer
    rw [Tape.buffer_advanceBy]
    rcases List.mem_cons.mp hf with rfl | hf
    · exact h.sound.identified l.stack.top List.mem_cons_self
    · exact h.sound.identified f (List.mem_cons_of_mem _ hf)
  refine ⟨m, ⟨⟨hreads, hidentified, h.sound.holds⟩, ?_, h.beyond, rfl, h.diagnostic⟩, ?_⟩
  · show (l.tape.advanceBy 1).rest = bytes
    rw [Tape.rest_advanceBy, h.rest]
    rfl
  · have hm : m.settle = l.settle := by
      rw [settle_of_holdsStatements hregion,
        settle_of_holdsStatements (show m.stack.top.region.holdsStatements from hregion),
        Tape.skipLayout_blank hb h.rest]
      rfl
    rw [next, next, hm]

/-! ### A call -/

/-- **A call reads the token that begins with the first byte ahead.** -/
theorem of_read (h : l.Faces source (b :: bytes) s d)
    (hb : s.top.region.holdsStatements → b.isSolid) {r : Reading}
    (hread : read s.top b bytes l.tape = .ok r) :
    let l' : Lexer := ⟨r.tape, s.commit r.shift r.token.kind⟩
    l.Shows r.token.kind (r.token.literal.bind (·.slice? r.tape.buffer)) l'
      ∧ l'.Faces source r.tape.rest (s.commit r.shift r.token.kind) r.tape.diagnostic := by
  intro l'
  obtain rfl := h.stack
  have hnext : l.next = .ok (r.token, l') := by
    rw [next, h.settle_eq hb, step, h.rest]
    simp only
    rw [hread]
    rfl
  have hmoves := h.sound.reads.moves hnext
  obtain ⟨r', n, hr', -, hlawful⟩ := exists_read h.rest (h.sound.reads.named _ List.mem_cons_self)
  rw [hread] at hr'
  cases hr'
  refine ⟨⟨r.token, hmoves.scan_eq hnext, rfl⟩, h.sound.of_next hnext, rfl, ?_, rfl, rfl⟩
  rw [← h.beyond]
  exact hlawful.onward.beyond

/-- The token of a call begins where the lexer stands, if no layout does. -/
theorem begins (h : l.Faces source (b :: bytes) s d)
    (hb : s.top.region.holdsStatements → b.isSolid) {token : Token}
    (hnext : l.next = .ok (token, l')) : token.pos = l.pos := by
  obtain ⟨r, n, hread, -, hlawful⟩ :=
    exists_read h.rest (h.sound.reads.named _ List.mem_cons_self)
  rw [next, h.settle_eq hb, step, h.rest] at hnext
  simp only [hread] at hnext
  cases hnext
  exact hlawful.begins

/-- A call that reads a token whose literal is its own text, from its byte `i` on. -/
theorem of_spelled (h : l.Faces source (b :: bytes) s d)
    (hb : s.top.region.holdsStatements → b.isSolid) {i : Nat} {shift : Shift} (hi : i ≤ n)
    (hn : n ≤ bytes.length + 1)
    (hread : read s.top b bytes l.tape
      = Reading.spelled l.tape.pos (l.tape.pos + i) kind shift (l.tape.advanceBy n)) :
    ∃ l', l.Shows kind (some (((b :: bytes).take n).drop i)) l'
      ∧ l'.Faces source ((b :: bytes).drop n) (s.commit shift kind) d := by
  have hlength : l.tape.rest.length = bytes.length + 1 := by rw [h.rest, List.length_cons]
  have hstop : (l.tape.advanceBy n).pos = l.tape.pos + i + (n - i) := by
    rw [Tape.pos_advanceBy]
    omega
  have hspan : Span.slice? ⟨l.tape.pos + i, (l.tape.advanceBy n).pos⟩ (l.tape.advanceBy n).buffer
      = some (((b :: bytes).take n).drop i) := by
    rw [hstop, Tape.buffer_advanceBy, Tape.slice?_ahead (by omega), h.rest, List.drop_take]
  rw [Reading.spelled, Span.between, if_pos (by omega)] at hread
  obtain ⟨hshows, hfaces⟩ := h.of_read hb hread
  refine ⟨⟨l.tape.advanceBy n, s.commit shift kind⟩, ?_, ?_⟩
  · rw [← hspan]
    exact hshows
  · rw [← h.rest, ← h.diagnostic]
    exact hfaces

/-- A call that reads a token without a literal. -/
theorem of_bare (h : l.Faces source (b :: bytes) s d)
    (hb : s.top.region.holdsStatements → b.isSolid) {shift : Shift}
    (hread : read s.top b bytes l.tape
      = .ok ⟨.bare l.tape.pos kind, shift, l.tape.advanceBy n⟩) :
    ∃ l', l.Shows kind none l' ∧ l'.Faces source ((b :: bytes).drop n) (s.commit shift kind) d
      ∧ l'.tape = l.tape.advanceBy n := by
  obtain ⟨hshows, hfaces⟩ := h.of_read hb hread
  refine ⟨_, hshows, ?_, rfl⟩
  rw [← h.rest, ← h.diagnostic]
  exact hfaces

/-- A call that reads a segment of text. -/
theorem of_text (h : l.Faces source (b :: bytes) s d)
    (hb : s.top.region.holdsStatements → b.isSolid) {pos : Nat} {style : Style} {lineStart : Bool}
    {ending : Stop → Ending} {p : Passage} (hn : n ≤ bytes.length + 1)
    (hread : read s.top b bytes l.tape
      = .ok (Reading.text pos style lineStart ending (l.tape.advanceBy n)))
    (hp : style.passage lineStart ((b :: bytes).drop n) = p) :
    ∃ l', l.Shows (ending p.stop).kind (some p.text) l'
      ∧ l'.Faces source ((b :: bytes).drop (n + (p.length + p.stop.length)))
        (s.commit (ending p.stop).shift (ending p.stop).kind)
        ((d.or (p.fault.map (·.shift (l.pos + n)))).or
          ((ending p.stop).fault.map (⟨pos, ·⟩))) := by
  have hrest : (l.tape.advanceBy n).rest = (b :: bytes).drop n := by
    rw [Tape.rest_advanceBy, h.rest]
  have hpos : (l.tape.advanceBy n).pos = l.pos + n := by
    rw [Tape.pos_advanceBy, h.rest, List.length_cons, Nat.min_eq_left hn]
    rfl
  rw [← hrest] at hp
  obtain ⟨hshows, hfaces⟩ := h.of_read hb hread
  rw [Reading.slice?_text, hp] at hshows
  rw [Reading.rest_text, Reading.diagnostic_text, hp, hpos, hrest, List.drop_drop] at hfaces
  subst hp
  refine ⟨_, hshows, ?_⟩
  rw [← h.diagnostic]
  exact hfaces

/-! ### Statements -/

/-- Where the bytes of statements are read, the first begins a lexeme. -/
theorem read_eq_ofLexeme {f : Frame} {rest : List Byte} {t : Tape} {lexeme : Lexeme}
    (hregion : f.region.ReadsStatement b)
    (hlexeme : ∀ lineStart, Lexeme.read f.lookback lineStart b rest = lexeme) :
    read f b rest t = Reading.ofLexeme lexeme t := by
  rw [read_eq_statement hregion, Reading.statement, hlexeme]

section Statements

variable (h : l.Faces source (b :: bytes) s d) (hb : b.isSolid)
  (hregion : s.top.region.ReadsStatement b)

include h hb hregion

/-- A token without a literal. -/
theorem bare (hlexeme : ∀ lineStart, Lexeme.read s.top.lookback lineStart b bytes = .bare kind n) :
    ∃ l', l.Shows kind none l'
      ∧ l'.Faces source ((b :: bytes).drop n) (s.commit .stay kind) d := by
  obtain ⟨l', hshows, hfaces, -⟩ := h.of_bare (fun _ => hb) (read_eq_ofLexeme hregion hlexeme)
  exact ⟨l', hshows, hfaces⟩

/-- A token whose literal is its own text. -/
theorem spelled
    (hlexeme : ∀ lineStart, Lexeme.read s.top.lookback lineStart b bytes = .spelled kind n) :
    ∃ l', l.Shows kind (some ((b :: bytes).take n)) l'
      ∧ l'.Faces source ((b :: bytes).drop n) (s.commit .stay kind) d := by
  have hfits := Lexeme.fits_read s.top.lookback bytes false b
  rw [hlexeme] at hfits
  exact h.of_spelled (fun _ => hb) (Nat.zero_le n) hfits.2.2 (read_eq_ofLexeme hregion hlexeme)

/-- An opener of a heredoc. -/
theorem heredoc {opener : HeredocOpener}
    (hlexeme : ∀ lineStart, Lexeme.read s.top.lookback lineStart b bytes = .heredoc opener) :
    ∃ (l' : Lexer) (heredoc : Heredoc),
      l.Shows .heredocBegin (some ((b :: bytes).take (2 + opener.length))) l'
      ∧ heredoc.WaitsFor source
          ⟨((b :: bytes).drop (2 + opener.offset)).take opener.size, opener.indented⟩
          opener.verbatim
      ∧ l'.Faces source ((b :: bytes).drop (2 + opener.length))
          (s.commit (.push (.heredocLine heredoc)) .heredocBegin) d := by
  have hfits := Lexeme.fits_read s.top.lookback bytes false b
  rw [hlexeme] at hfits
  obtain ⟨-, hinside, hle⟩ := hfits
  have hlength : l.tape.rest.length = bytes.length + 1 := by rw [h.rest, List.length_cons]
  let identifier : Span :=
    ⟨l.tape.pos + (2 + opener.offset), l.tape.pos + (2 + opener.offset) + opener.size⟩
  have hname : identifier.slice? source
      = some (((b :: bytes).drop (2 + opener.offset)).take opener.size) := by
    have hbuffer : identifier.slice? l.tape.buffer = identifier.slice? source :=
      Span.slice?_congr h.sound.reads.tape.length_buffer fun i hi _ =>
        h.sound.reads.tape.buffer_eq (Nat.le_trans (Nat.le_add_right _ _) hi)
    rw [← hbuffer, Tape.slice?_ahead (by omega), h.rest]
  have hread : read s.top b bytes l.tape
      = Reading.spelled l.tape.pos l.tape.pos .heredocBegin
        (.push (.heredocLine ⟨identifier, opener.indented, opener.verbatim⟩))
        (l.tape.advanceBy (2 + opener.length)) := by
    rw [read_eq_ofLexeme hregion hlexeme, Reading.ofLexeme, Span.between,
      if_pos (Nat.le_add_right _ _), Nat.add_assoc l.tape.pos]
    rfl
  obtain ⟨l', hshows, hfaces⟩ := h.of_spelled (fun _ => hb) (Nat.zero_le _) hle hread
  exact ⟨l', _, hshows, ⟨hname, rfl, rfl⟩, hfaces⟩

/-- A quoted literal, whose text is decoded. -/
theorem quoted {close : Byte} {p : Passage}
    (hlexeme : ∀ lineStart, Lexeme.read s.top.lookback lineStart b bytes = .quoted false close n)
    (hp : (Style.decoded close).passage false ((b :: bytes).drop n) = p) :
    ∃ l', l.Shows (Ending.quoted close false p.stop).kind (some p.text) l'
      ∧ l'.Faces source ((b :: bytes).drop (n + (p.length + p.stop.length)))
        (s.commit (Ending.quoted close false p.stop).shift (Ending.quoted close false p.stop).kind)
        ((d.or (p.fault.map (·.shift (l.pos + n)))).or
          ((Ending.quoted close false p.stop).fault.map (⟨l.pos, ·⟩))) := by
  have hfits := Lexeme.fits_read s.top.lookback bytes false b
  rw [hlexeme] at hfits
  refine h.of_text (fun _ => hb) hfits.2 ?_ hp
  rw [read_eq_ofLexeme hregion hlexeme]
  exact Reading.segment_eq ..

/-- A quoted literal, whose text is verbatim. -/
theorem verbatim {close : Byte} {p : Passage}
    (hlexeme : ∀ lineStart, Lexeme.read s.top.lookback lineStart b bytes = .quoted true close n)
    (hp : (Style.verbatim close).passage false ((b :: bytes).drop n) = p) :
    ∃ l', l.Shows (Ending.verbatim p.stop).kind (some p.text) l'
      ∧ l'.Faces source ((b :: bytes).drop (n + (p.length + p.stop.length)))
        (s.commit (Ending.verbatim p.stop).shift (Ending.verbatim p.stop).kind)
        ((d.or (p.fault.map (·.shift (l.pos + n)))).or
          ((Ending.verbatim p.stop).fault.map (⟨l.pos, ·⟩))) := by
  have hfits := Lexeme.fits_read s.top.lookback bytes false b
  rw [hlexeme] at hfits
  refine h.of_text (fun _ => hb) hfits.2 ?_ hp
  rw [read_eq_ofLexeme hregion hlexeme]
  exact Reading.verbatim_eq ..

end Statements

/-! ### Ends of lines and of interpolations -/

/-- The end of a line behind the opener of a heredoc: the body begins, and a line begins there. -/
theorem lineEnd {heredoc : Heredoc} (h : l.Faces source (Byte.newline :: bytes) s d)
    (hregion : s.top.region = .heredocLine heredoc) :
    ∃ l', l.Shows .newLine none l'
      ∧ l'.Faces source bytes (s.commit (.swap (.heredocBody heredoc)) .newLine) d
      ∧ l'.tape.isLineStart l'.tape.pos := by
  have hread : read s.top Byte.newline bytes l.tape
      = .ok ⟨.bare l.tape.pos .newLine, .swap (.heredocBody heredoc), l.tape.advanceBy 1⟩ := by
    rw [read, hregion, ← Tape.advance_eq_advanceBy]
    exact if_pos rfl
  obtain ⟨l', hshows, hfaces, htape⟩ := h.of_bare (fun _ => by decide) hread
  refine ⟨l', hshows, hfaces, ?_⟩
  rw [htape, Tape.isLineStart_pos, Tape.advanceBy, Array.toList_appendList, h.rest]
  simp [Line.startsBehind]

/-- The brace that closes an interpolation. -/
theorem insertEnd (h : l.Faces source (Byte.ofChar '\x7d' :: bytes) s d)
    (hregion : s.top.region = .interpolation 0) :
    ∃ l', l.Shows .insertEnd none l' ∧ l'.Faces source bytes (s.commit .pop .insertEnd) d := by
  have hread : read s.top (Byte.ofChar '\x7d') bytes l.tape
      = .ok ⟨.bare l.tape.pos .insertEnd, .pop, l.tape.advanceBy 1⟩ := by
    rw [read, hregion, ← Tape.advance_eq_advanceBy]
    exact if_pos ⟨rfl, rfl⟩
  obtain ⟨l', hshows, hfaces, -⟩ := h.of_bare (fun _ => by decide) hread
  exact ⟨l', hshows, hfaces⟩

/-! ### Text that has been interrupted -/

/-- Where text is read that an introducer may interrupt, one that stands there is read first. -/
theorem read_introducer {f : Frame} {rest : List Byte} {t : Tape} {x : Except Misuse Reading}
    (hregion : f.region.Interruptible) (hread : Reading.introducer? t = x.map some) :
    read f b rest t = x := by
  obtain ⟨region, lookback⟩ := f
  cases region with
  | quoted close =>
    simp only [read, Reading.resumedString, hread]
    cases x <;> rfl
  | heredocBody heredoc =>
    have hverbatim : ¬ heredoc.verbatim := hregion
    simp only [read, Reading.heredocBody, if_neg hverbatim, hread]
    cases x <;> rfl
  | statements | interpolation _ | heredocLine _ => cases hregion

section Text

variable (h : l.Faces source (b :: bytes) s d)

include h

/-- The opening of an interpolation. -/
theorem insertBegin (hregion : s.top.region.Interruptible)
    (hintroducer : Introducer.read? (b :: bytes) = some .statements) :
    ∃ l', l.Shows .insertBegin none l'
      ∧ l'.Faces source ((b :: bytes).drop 2) (s.commit (.push (.interpolation 0)) .insertBegin)
        d := by
  have hread : Reading.introducer? l.tape
      = (Except.ok ⟨.bare l.tape.pos .insertBegin, .push (.interpolation 0),
        l.tape.advanceBy 2⟩).map some := by
    rw [Reading.introducer?, h.rest, hintroducer]
    rfl
  obtain ⟨l', hshows, hfaces, -⟩ :=
    h.of_bare (fun hb => absurd hb hregion.not_holdsStatements) (read_introducer hregion hread)
  exact ⟨l', hshows, hfaces⟩

/-- A variable that interrupts a text. -/
theorem insertedVariable (hregion : s.top.region.Interruptible)
    (hintroducer : Introducer.read? (b :: bytes) = some (.variableName kind n)) :
    ∃ l', l.Shows kind (some (((b :: bytes).take (1 + n)).drop 1)) l'
      ∧ l'.Faces source ((b :: bytes).drop (1 + n)) (s.commit .stay kind) d := by
  have hwithin := Introducer.within_read? hintroducer
  have hread : Reading.introducer? l.tape
      = (Reading.spelled l.tape.pos (l.tape.pos + 1) kind .stay (l.tape.advanceBy (1 + n))).map
        some := by
    rw [Reading.introducer?, h.rest, hintroducer]
  exact h.of_spelled (fun hb => absurd hb hregion.not_holdsStatements) (Nat.le_add_right 1 n)
    hwithin.2.2 (read_introducer hregion hread)

end Text

/-- The segment of a string behind an introducer. -/
theorem resumed (h : l.Faces source bytes s d) (hne : bytes ≠ []) {close : Byte} {p : Passage}
    (hregion : s.top.region = .quoted close) (hintroducer : Introducer.read? bytes = none)
    (hp : (Style.decoded close).passage false bytes = p) :
    ∃ l', l.Shows (Ending.quoted close true p.stop).kind (some p.text) l'
      ∧ l'.Faces source (bytes.drop (p.length + p.stop.length))
        (s.commit (Ending.quoted close true p.stop).shift (Ending.quoted close true p.stop).kind)
        ((d.or (p.fault.map (·.shift l.pos))).or
          ((Ending.quoted close true p.stop).fault.map (⟨l.pos, ·⟩))) := by
  obtain ⟨b, rest, rfl⟩ := List.exists_cons_of_ne_nil hne
  have hread : read s.top b rest l.tape
      = .ok (Reading.text l.tape.pos (.decoded close) false (Ending.quoted close true)
        (l.tape.advanceBy 0)) := by
    have hnone : Reading.introducer? l.tape = .ok none := by
      rw [Reading.introducer?, h.rest, hintroducer]
    simp only [read, hregion, Reading.resumedString, hnone, Tape.advanceBy_zero]
    exact Reading.segment_eq ..
  have hb : s.top.region.holdsStatements → b.isSolid := by
    rw [hregion]
    exact fun hb => absurd hb (Bool.false_ne_true)
  obtain ⟨l', hshows, hfaces⟩ := h.of_text hb (Nat.zero_le _) hread hp
  rw [Nat.zero_add] at hfaces
  exact ⟨l', hshows, hfaces⟩

/-- A segment of the body of a heredoc. -/
theorem body (h : l.Faces source bytes s d) (hne : bytes ≠ []) {heredoc : Heredoc}
    {close : TerminatorLine} {isVerbatim lineStart : Bool} {p : Passage}
    (hregion : s.top.region = .heredocBody heredoc)
    (hwaits : heredoc.WaitsFor source close isVerbatim)
    (hintroducer : isVerbatim ∨ Introducer.read? bytes = none)
    (hline : l.tape.isLineStart l.tape.pos = lineStart)
    (hp : (close.style isVerbatim).passage lineStart bytes = p) :
    ∃ l', l.Shows (Ending.body p.stop).kind (some p.text) l'
      ∧ l'.Faces source (bytes.drop (p.length + p.stop.length))
        (s.commit (Ending.body p.stop).shift (Ending.body p.stop).kind)
        ((d.or (p.fault.map (·.shift l.pos))).or
          ((Ending.body p.stop).fault.map (⟨l.pos, ·⟩))) := by
  obtain ⟨b, rest, rfl⟩ := List.exists_cons_of_ne_nil hne
  have hidentified : s.top.region.Identified source l.tape.buffer := by
    rw [← h.stack]
    exact h.sound.identified l.stack.top List.mem_cons_self
  rw [hregion] at hidentified
  obtain ⟨identifier, hsource, hbuffer, -⟩ := hidentified
  rw [hwaits.identifier] at hsource
  cases hsource
  have hstyle : Reading.heredocStyle heredoc l.tape = .ok (close.style isVerbatim) := by
    rw [Reading.heredocStyle, Tape.slice_eq_ok_iff.mpr hbuffer, hwaits.indented,
      hwaits.isVerbatim]
    rfl
  have hread : read s.top b rest l.tape
      = .ok (Reading.text l.tape.pos (close.style isVerbatim) lineStart Ending.body
        (l.tape.advanceBy 0)) := by
    rw [Tape.advanceBy_zero, ← hline, ← Reading.bodySegment_eq _ hstyle]
    rw [read, hregion]
    show Reading.heredocBody heredoc l.tape = _
    rw [Reading.heredocBody, hwaits.isVerbatim]
    rcases hintroducer with hverbatim | hnone
    · exact if_pos hverbatim
    · cases isVerbatim with
      | true => rfl
      | false =>
        have hnone : Reading.introducer? l.tape = .ok none := by
          rw [Reading.introducer?, h.rest, hnone]
        rw [hnone]
        rfl
  have hb : s.top.region.holdsStatements → b.isSolid := by
    rw [hregion]
    exact fun hb => absurd hb Bool.false_ne_true
  obtain ⟨l', hshows, hfaces⟩ := h.of_text hb (Nat.zero_le _) hread hp
  rw [Nat.zero_add] at hfaces
  exact ⟨l', hshows, hfaces⟩

/-! ### The end of the script -/

/-- At the end of the script, with nothing open, a call leaves all as it is. -/
theorem next_at_end (h : l.Faces source [] s d) (hdepth : s.depth = 1) :
    l.next = .ok (.bare source.length .endOfInput, l) := by
  have hpos : l.pos = source.length := h.pos
  have hclosed : ¬ 1 < l.depth := by
    rw [h.depth, hdepth]
    exact Nat.lt_irrefl 1
  rw [next, settle_of_rest_eq_nil h.rest, step, h.rest]
  show Except.ok l.finish = _
  rw [finish, if_neg hclosed, hpos]

theorem ends (h : l.Faces source [] s d) (hdepth : s.depth = 1) :
    l.Ends (.bare source.length .endOfInput) l :=
  ⟨[], calls_cons (h.next_at_end hdepth) rfl, List.forall_mem_nil _, rfl⟩

theorem endOfInput (h : l.Faces source [] s d) (hdepth : s.depth = 1) :
    l.Shows .endOfInput none l := by
  obtain ⟨token, l', hnext, hmoves⟩ := exists_next h.sound.reads
  rw [h.next_at_end hdepth] at hnext
  cases hnext
  exact ⟨_, hmoves.scan_eq (h.next_at_end hdepth), rfl⟩

end Faces

end Lexer

end ScriptLexer
