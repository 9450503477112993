import ScriptLexer.Proofs.Lexer.Heredocs
import ScriptLexer.Proofs.Text.Body

/-!
# Heredocs and the lines that close them

The body of a heredoc is read segment by segment, and each segment up to the first place that ends
it. What that place is, and what the segment stands for, is said here of every lexer that has come
to a body (`Lexer.body_stops_first`).

The opener and the body read the same identifier in different ways: the opener takes any bytes
between quotes, and the body looks for them at the start of a line. They agree, so that an
identifier alone on the line behind its opener closes the heredoc at once, but for two kinds of
identifiers. One that begins with a blank is not found behind blanks, which take it in. And where
the body is decoded, one that begins with an introducer is not looked for at the start of the body,
where introducers are read first.

## Main definitions

* `Lexer.ReadsBody` — what a call reads of a body, given the lines that close it
* `HeredocName` — the identifier of a heredoc, as an opener has it

## Main results

* `Lexer.body_stops_first` — a body is read up to the first place that ends it
* `HeredocName.closes_at_once_iff` — which heredocs the line behind the opener can close
-/

namespace ScriptLexer

namespace Lexer

variable {source : List Byte} {l : Lexer} {tokens : List Token} {n : Nat} {heredoc : Heredoc}

/-! ### Bodies -/

/-- A lexer that is not at the end of its script faces all that is behind its offset. -/
theorem Sound.faces (h : l.Sound source) (hrest : l.tape.rest ≠ []) :
    l.Faces source (source.drop l.pos) l.stack l.diagnostic := by
  have hbeyond : l.tape.beyond = [] := by
    by_contra hbeyond
    exact hrest (h.reads.tape.ended hbeyond).1
  have hahead := h.reads.tape.ahead
  rw [hbeyond, List.append_nil] at hahead
  exact ⟨h, hahead, hbeyond, rfl, rfl⟩

/-- A line begins where a lexer stands if the script has a line feed in front of it. -/
theorem Sound.isLineStart (h : l.Sound source) :
    l.tape.isLineStart l.tape.pos = Line.startsBehind (source.take l.pos) := by
  rw [Tape.isLineStart_pos, Line.startsBehind, h.reads.tape.last]
  rfl

/-- The body that a lexer stands in waits for an identifier, which has a byte. -/
theorem Sound.exists_waitsFor (h : l.Sound source)
    (hregion : l.stack.top.region = .heredocBody heredoc) :
    ∃ identifier, identifier ≠ []
      ∧ heredoc.WaitsFor source ⟨identifier, heredoc.indented⟩ heredoc.verbatim := by
  have hidentified := h.identified l.stack.top List.mem_cons_self
  have hnamed := h.reads.named l.stack.top List.mem_cons_self
  rw [hregion] at hidentified hnamed
  obtain ⟨identifier, hsource, -, -⟩ := hidentified
  refine ⟨identifier, ?_, hsource, rfl, rfl⟩
  rintro rfl
  rw [Span.slice?] at hsource
  split at hsource
  · have hlength := congrArg List.length (Option.some.inj hsource)
    rw [List.length_take, List.length_drop, Span.length, List.length_nil] at hlength
    have hlt := hnamed.1
    omega
  · cases hsource

/-- What a call reads of a decoded body, if `closes` tells which bytes begin with the line that
closes it: all up to the first place where the body stops, which is `e` bytes ahead. -/
structure ReadsBody (source : List Byte) (closes : List Byte → Nat → Prop) (l : Lexer)
    (token : Token) (l' : Lexer) (e : Nat) (stop : Stop) : Prop where
  stops : Reference.StopsFirst closes (Line.startsBehind (source.take l.pos))
    (source.drop l.pos) e stop
  begins : token.pos = l.pos
  kind : token.kind = (Ending.body stop).kind
  literal : l'.literal token = .ok (some (Reference.text ((source.drop l.pos).take e)))
  behind : l'.pos = l.pos + e + stop.length

/-- **A body is read up to the first place that ends it.** That is where a line of the text begins
with the line that closes the heredoc, or where an introducer begins, or the end of the script; and
the segment stands for what its units stand for. -/
theorem body_stops_first (hcalls : calls next n (ofBytes source) = .ok (tokens, l))
    (hregion : l.stack.top.region = .heredocBody heredoc) (hverbatim : heredoc.verbatim = false)
    (hrest : l.tape.rest ≠ []) (hintroducer : Reference.introduces (source.drop l.pos) = false) :
    ∃ identifier token l' e stop, heredoc.identifier.slice? source = some identifier
      ∧ l.next = .ok (token, l')
      ∧ l.ReadsBody source
          (fun bytes n => TerminatorLine.Holds ⟨identifier, heredoc.indented⟩ bytes n
            ∧ ¬ TerminatorLine.Blends ⟨identifier, heredoc.indented⟩) token l' e stop := by
  have hl := (sound_ofBytes source).of_calls hcalls
  have hfaces := hl.faces hrest
  obtain ⟨identifier, hne, hwaits⟩ := hl.exists_waitsFor hregion
  rw [hverbatim] at hwaits
  let line : TerminatorLine := ⟨identifier, heredoc.indented⟩
  let p := (Style.decodedLines line).passage (Line.startsBehind (source.take l.pos))
    (source.drop l.pos)
  have hahead : source.drop l.pos ≠ [] := hfaces.rest ▸ hrest
  obtain ⟨l', ⟨token, hscan, hkind⟩, hl'⟩ := hfaces.body hahead hregion hwaits
    (.inr (Introducer.read?_eq_none_iff.mpr hintroducer)) hl.isLineStart (p := p) rfl
  have hnext := next_of_scan hscan
  obtain ⟨b, rest, hcons⟩ := List.exists_cons_of_ne_nil hahead
  have hbegins : token.pos = l.pos := by
    rw [hcons] at hfaces
    refine hfaces.begins (fun hstatements => ?_) hnext
    rw [hregion] at hstatements
    cases hstatements
  have hbehind : l'.pos = l.pos + p.length + p.stop.length := by
    have hle : p.length + p.stop.length ≤ (source.drop l.pos).length := Style.length_stop_le ..
    have hpos := hfaces.pos
    have hpos' := hl'.pos
    rw [List.length_drop] at hpos'
    omega
  refine ⟨identifier, token, l', p.length, p.stop, hwaits.identifier, hnext, ?_, hbegins, hkind, ?_,
    hbehind⟩
  · exact Style.passage_stopsFirst (fun _ _ => line.read?_eq_some_iff hne) _ _
  · have htext : p.text = Reference.text ((source.drop l.pos).take p.length) :=
      Style.text_passage line _ _
    rw [literal_of_scan hscan, htext]

/-- The lexer of a script that has read the one line in front of the body of a heredoc. -/
def behindOpener (line rest : String) (heredoc : Heredoc) : Lexer :=
  ⟨⟨(Byte.ofString line).toArray, Byte.ofString rest, [], none⟩,
    ⟨⟨.heredocBody heredoc, .fresh⟩, [⟨.statements, ⟨.heredocBegin, true, false⟩⟩]⟩⟩

/-- The identifier stands behind a line feed that an escape takes, and then on a line of its own. -/
theorem body_stops_first_wrapped :
    let source := Byte.ofString "<<-E\nx\\\nE\n  E\n"
    let l := behindOpener "<<-E\n" "x\\\nE\n  E\n" ⟨⟨3, 4⟩, true, false⟩
    ∃ tokens, calls next 2 (ofBytes source) = .ok (tokens, l) ∧ l.tape.rest ≠ []
      ∧ Reference.introduces (source.drop l.pos) = false
      ∧ ∃ identifier token l' e stop, Span.slice? ⟨3, 4⟩ source = some identifier
        ∧ l.next = .ok (token, l')
        ∧ l.ReadsBody source (fun bytes n => TerminatorLine.Holds ⟨identifier, true⟩ bytes n
            ∧ ¬ TerminatorLine.Blends ⟨identifier, true⟩) token l' e stop := by
  intro source l
  have hcalls : calls next 2 (ofBytes source)
      = .ok ([.withLiteral 0 .heredocBegin ⟨0, 4⟩, .bare 4 .newLine], l) := by decide +kernel
  have hrest : l.tape.rest ≠ [] := by decide +kernel
  have hintroducer : Reference.introduces (source.drop l.pos) = false := by decide +kernel
  exact ⟨_, hcalls, hrest, hintroducer, body_stops_first hcalls rfl rfl hrest hintroducer⟩

/-- **A line that holds the identifier does not always end the body.** -/
theorem body_passes_blank_identifier :
    ¬ ∀ (source : List Byte) (n : Nat) (tokens : List Token) (l : Lexer) (heredoc : Heredoc),
      calls next n (ofBytes source) = .ok (tokens, l) →
      l.stack.top.region = .heredocBody heredoc → heredoc.verbatim = false → l.tape.rest ≠ [] →
      Reference.introduces (source.drop l.pos) = false →
      ∃ identifier token l' e stop, heredoc.identifier.slice? source = some identifier
        ∧ l.next = .ok (token, l')
        ∧ l.ReadsBody source (TerminatorLine.Holds ⟨identifier, heredoc.indented⟩) token l' e
          stop := by
  intro h
  let source := Byte.ofString "<<-\" A\"\nx\n A\n"
  let l := behindOpener "<<-\" A\"\n" "x\n A\n" ⟨⟨4, 6⟩, true, false⟩
  have hcalls : calls next 2 (ofBytes source)
      = .ok ([.withLiteral 0 .heredocBegin ⟨0, 7⟩, .bare 7 .newLine], l) := by decide +kernel
  have hkind : l.next.map (·.1.kind) = .ok .illegal := by decide +kernel
  have hidentifier : Span.slice? ⟨4, 6⟩ source = some (Byte.ofString " A") := by decide +kernel
  have hbytes : source.drop l.pos = Byte.ofString "x\n A\n" := by decide +kernel
  have hstart : Line.startsBehind (source.take l.pos) = true := by decide +kernel
  obtain ⟨identifier, token, l', e, stop, hname, hnext, hreads⟩ :=
    h source 2 _ l _ hcalls rfl rfl (by decide +kernel) (by decide +kernel)
  obtain rfl := Option.some.inj (hidentifier.symm.trans hname)
  rw [hnext] at hkind
  have hillegal : (Ending.body stop).kind = .illegal := hreads.kind.symm.trans (Except.ok.inj hkind)
  obtain ⟨⟨starts, -, hstops⟩, hfirst⟩ := hreads.stops
  rw [hbytes] at hstops
  rw [hbytes, hstart] at hfirst
  cases hstops with
  | closed hstarts hcloses => cases hillegal
  | interpolation hopen hintroduces => cases hillegal
  | endOfInput hopen hends =>
    have hlate : 2 < e := by
      have hlength := List.drop_eq_nil_iff.mp hends
      exact Nat.lt_of_lt_of_le (by decide) hlength
    have hboundary : Reference.Boundary true (Byte.ofString "x\n A\n") 2 true :=
      .behind (.behind .here)
    have hholds : TerminatorLine.Holds ⟨Byte.ofString " A", true⟩ (Byte.ofString " A\n") 2 :=
      ⟨[], [Byte.newline], rfl, rfl, List.forall_mem_nil _, .inl rfl, rfl⟩
    exact hfirst 2 hlate true hboundary (.closed 2) (.closed rfl hholds)

end Lexer

/-! ### Openers -/

/-- The identifier of a heredoc as an opener has it: perhaps behind a sign, which lets the line that
closes the heredoc be indented, and perhaps in quotes, of which single ones ask for verbatim
text. -/
structure HeredocName where
  sign : Option Byte
  quote : Option Byte
  identifier : List Byte
  sign_cases : ∀ c ∈ sign, c = Byte.ofChar '-' ∨ c = Byte.ofChar '~'
  quote_cases : ∀ q ∈ quote, q = Byte.ofChar '\'' ∨ q = Byte.ofChar '"'
  identifier_ne_nil : identifier ≠ []
  identifier_plain : ∀ b ∈ identifier,
    match quote with
    | none => (Byte.isIdentContinue b : Prop)
    | some q => b ≠ q ∧ b ≠ Byte.newline

namespace HeredocName

variable (h : HeredocName)

/-- The identifier in its quotes. -/
def quoted : List Byte :=
  h.quote.toList ++ h.identifier ++ h.quote.toList

/-- The bytes of the opener behind its `<<`. -/
def text : List Byte :=
  h.sign.toList ++ h.quoted

/-- The opener. -/
def opener : List Byte :=
  Byte.ofChar '<' :: Byte.ofChar '<' :: h.text

/-- The line that closes the heredoc. -/
def line : TerminatorLine :=
  ⟨h.identifier, h.sign.isSome⟩

/-- Whether the body is verbatim. -/
def isVerbatim : Bool :=
  h.quote == some (Byte.ofChar '\'')

/-- A script that opens the heredoc and has its identifier on the next line. -/
def script : List Byte :=
  h.opener ++ Byte.newline :: (h.identifier ++ [Byte.newline])

/-- The identifier is read, in quotes or not. -/
theorem read_quoted (indented : Bool) (offset : Nat) (behind : List Byte) :
    HeredocStart.identifier indented offset (h.quoted ++ Byte.newline :: behind)
      = .accepted ⟨indented, h.isVerbatim, offset + h.quote.toList.length, h.identifier.length,
        offset + h.quoted.length⟩ := by
  obtain ⟨sign, quote, identifier, -, hquote, hne, hplain⟩ := h
  cases quote with
  | none =>
    have hread := HeredocStart.identifier_bare indented offset hne hplain behind
    simpa [quoted, isVerbatim] using hread
  | some q =>
    have hread := HeredocStart.identifier_quoted indented offset (hquote q rfl) hne hplain
      (Byte.newline :: behind)
    simpa [quoted, isVerbatim, Nat.add_assoc] using hread

/-- No sign begins the identifier in its quotes. -/
theorem exists_quoted_eq_cons :
    ∃ b rest, h.quoted = b :: rest ∧ b ≠ Byte.ofChar '-' ∧ b ≠ Byte.ofChar '~' := by
  obtain ⟨sign, quote, identifier, -, hquote, hne, hplain⟩ := h
  cases quote with
  | none =>
    obtain ⟨b, name, rfl⟩ := List.exists_cons_of_ne_nil hne
    have hb : Byte.isIdentContinue b := hplain b List.mem_cons_self
    refine ⟨b, name, List.append_nil _, ?_, ?_⟩
    · rintro rfl
      exact absurd hb (by decide)
    · rintro rfl
      exact absurd hb (by decide)
  | some q =>
    refine ⟨q, identifier ++ [q], rfl, ?_, ?_⟩
    · rcases hquote q rfl with rfl | rfl <;> decide
    · rcases hquote q rfl with rfl | rfl <;> decide

/-- **The opener is read.** -/
theorem read_text (behind : List Byte) :
    HeredocStart.read (h.text ++ Byte.newline :: behind)
      = .accepted ⟨h.line.indented, h.isVerbatim, h.sign.toList.length + h.quote.toList.length,
        h.identifier.length, h.text.length⟩ := by
  have hlength : h.text.length = h.sign.toList.length + h.quoted.length := List.length_append
  rw [hlength, ← h.read_quoted, text, line, List.append_assoc]
  cases hsign : h.sign with
  | none =>
    obtain ⟨b, rest, hquoted, hhyphen, htilde⟩ := h.exists_quoted_eq_cons
    rw [hquoted]
    exact HeredocStart.read_of_head hhyphen htilde _
  | some c =>
    rcases h.sign_cases c hsign with rfl | rfl
    · rfl
    · rfl

/-- The identifier stands where the opener has it. -/
theorem take_drop_text (behind : List Byte) :
    ((h.text ++ behind).drop (h.sign.toList.length + h.quote.toList.length)).take
      h.identifier.length = h.identifier := by
  rw [text, quoted, ← List.length_append]
  simp only [List.append_assoc]
  rw [← List.append_assoc, List.drop_left, List.take_left]

end HeredocName

/-! ### Closing at once -/

/-- What closes a body is its line, at the start of a line. -/
theorem TerminatorLine.close?_style (line : TerminatorLine) (isVerbatim lineStart : Bool)
    (bytes : List Byte) :
    (line.style isVerbatim).close? lineStart bytes
      = if lineStart then line.read? bytes else none := by
  cases isVerbatim with
  | true => rfl
  | false => rfl

/-- A body that is closed has the line that closes it. -/
theorem TerminatorLine.exists_read?_of_closed {line : TerminatorLine} {isVerbatim lineStart : Bool}
    {bytes : List Byte} {n : Nat}
    (h : ((line.style isVerbatim).passage lineStart bytes).stop = .closed n) :
    ∃ rest, line.read? rest = some n := by
  rcases Style.passage_stop_cases (line.style isVerbatim) lineStart bytes with
    ⟨starts, hstop⟩ | ⟨hend, -⟩
  · rw [h] at hstop
    rcases Style.stop?_cases hstop with ⟨m, hclosed, hclose⟩ | ⟨hinterpolation, -⟩
    · cases hclosed
      rw [close?_style] at hclose
      split at hclose
      · exact ⟨_, hclose⟩
      · cases hclose
    · cases hinterpolation
  · rw [h] at hend
    cases hend

/-- A body that begins with the line that closes it has no text. -/
theorem TerminatorLine.passage_of_read? {line : TerminatorLine} {bytes : List Byte} {n : Nat}
    (h : line.read? bytes = some n) (isVerbatim : Bool) :
    (line.style isVerbatim).passage true bytes = .empty (.closed n) := by
  refine Style.passage_of_stop ?_
  rw [Style.stop?, close?_style, if_pos rfl, h]

namespace Lexer

variable {source bytes : List Byte} {s : Stack} {d : Option Diagnostic} {l l' : Lexer}
  {kind : Kind} {literal : Option (List Byte)}

/-- Tokens that are shown begin with the first of them. -/
theorem ShowsAll.exists_of_cons {later : List (Kind × Option (List Byte))}
    (h : l.ShowsAll ((kind, literal) :: later) l') :
    ∃ m, l.Shows kind literal m ∧ m.ShowsAll later l' := by
  obtain ⟨seen, hcalls, hseen⟩ := h
  obtain ⟨x, m, ys, hx, hys, rfl⟩ := exists_of_calls_succ hcalls
  rw [List.map_cons, List.cons.injEq, Prod.mk.injEq] at hseen
  obtain ⟨⟨rfl, rfl⟩, rfl⟩ := hseen
  exact ⟨m, ⟨x.1, hx, rfl⟩, ys, hys, rfl⟩

/-- Where an introducer stands, the body goes on behind it. -/
theorem Faces.not_shows_heredocEnd (h : l.Faces source bytes s d)
    (hregion : s.top.region.Interruptible) (hintroduces : Reference.introduces bytes) :
    ¬ l.Shows .heredocEnd literal l' := by
  intro hshows
  obtain ⟨b, rest, rfl⟩ : ∃ b rest, bytes = b :: rest := by
    refine List.exists_cons_of_ne_nil ?_
    rintro rfl
    cases hintroduces
  rw [← Introducer.isSome_read?] at hintroduces
  obtain ⟨i, hread⟩ := Option.isSome_iff_exists.mp hintroduces
  cases i with
  | statements =>
    obtain ⟨m, hm, -⟩ := h.insertBegin hregion hread
    obtain ⟨hkind, -, -⟩ := hshows.unique hm
    cases hkind
  | variableName kind n =>
    obtain ⟨m, hm, -⟩ := h.insertedVariable hregion hread
    obtain ⟨rfl, -, -⟩ := hshows.unique hm
    exact absurd (Introducer.isSigiled_of_read? hread) (by decide)

/-- **A call that ends a heredoc** has found its line, and no introducer stood in front of it. -/
theorem Faces.closed_of_shows (h : l.Faces source bytes s d) (hne : bytes ≠ []) {heredoc : Heredoc}
    {close : TerminatorLine} {isVerbatim lineStart : Bool}
    (hregion : s.top.region = .heredocBody heredoc)
    (hwaits : heredoc.WaitsFor source close isVerbatim)
    (hline : l.tape.isLineStart l.tape.pos = lineStart) (hshows : l.Shows .heredocEnd literal l') :
    (isVerbatim ∨ ¬ Reference.introduces bytes)
      ∧ ∃ n, ((close.style isVerbatim).passage lineStart bytes).stop = .closed n := by
  have hopen : isVerbatim ∨ ¬ Reference.introduces bytes := by
    by_contra hopen
    rw [not_or, not_not] at hopen
    refine h.not_shows_heredocEnd ?_ hopen.2 hshows
    rw [hregion]
    show ¬ heredoc.verbatim
    rw [hwaits.isVerbatim]
    exact hopen.1
  have hread : isVerbatim ∨ Introducer.read? bytes = none := by
    rwa [Introducer.read?_eq_none_iff, ← Bool.not_eq_true]
  obtain ⟨m, hshows', -⟩ := h.body hne hregion hwaits hread hline rfl
  obtain ⟨hkind, -, -⟩ := hshows'.unique hshows
  refine ⟨hopen, ?_⟩
  cases hstop : ((close.style isVerbatim).passage lineStart bytes).stop with
  | closed n => exact ⟨n, rfl⟩
  | interpolation =>
    rw [hstop] at hkind
    cases hkind
  | endOfInput =>
    rw [hstop] at hkind
    cases hkind

end Lexer

namespace HeredocName

variable (h : HeredocName)

/-- The heredoc is closed by the line behind its opener: that is all its script is read as, and
nothing is left open or reported. -/
def ClosesAtOnce : Prop :=
  ∃ l, (Lexer.ofBytes h.script).ShowsAll
      [(.heredocBegin, some h.opener), (.newLine, none), (.heredocEnd, some []), (.newLine, none),
        (.endOfInput, none)] l
    ∧ l.depth = 1 ∧ l.diagnostic = none

/-- The opener is the first token of the script. -/
theorem exists_opened :
    ∃ (l : Lexer) (heredoc : Heredoc) (s : Stack),
      (Lexer.ofBytes h.script).Shows .heredocBegin (some h.opener) l
        ∧ heredoc.WaitsFor h.script h.line h.isVerbatim
        ∧ l.Faces h.script (Byte.newline :: (h.identifier ++ [Byte.newline])) s none
        ∧ s.top.region = .heredocLine heredoc
        ∧ s.below = [Frame.record .heredocBegin (.enter .statements)] := by
  obtain ⟨l, heredoc, hshows, hwaits, hl⟩ := (Lexer.faces_ofBytes h.script).opener trivial rfl
    (h.read_text (h.identifier ++ [Byte.newline])) (h.take_drop_text _)
  exact ⟨l, heredoc, _, hshows, hwaits, hl, rfl, rfl⟩

/-- **Which heredocs the line behind the opener closes.** All but two kinds: those whose identifier
cannot be told from blanks in front of it, and those whose body is decoded and begins with an
introducer, which is read first. -/
theorem closes_at_once_iff :
    h.ClosesAtOnce ↔ ¬ h.line.Blends ∧ (h.isVerbatim ∨ ¬ Reference.introduces h.identifier) := by
  obtain ⟨l, heredoc, s, hbegin, hwaits, hl, hregion, hbelow⟩ := h.exists_opened
  have hintroduces : Reference.introduces (h.identifier ++ [Byte.newline])
      = Reference.introduces h.identifier := Reference.introduces_append_cons (by decide)
  constructor
  · rintro ⟨l', hshows, -, -⟩
    -- The calls up to the body show what they must, so the next one is that of the body.
    obtain ⟨l₁, hbegin', hshows⟩ := hshows.exists_of_cons
    obtain ⟨-, -, rfl⟩ := hbegin.unique hbegin'
    obtain ⟨l₂, hline', hshows⟩ := hshows.exists_of_cons
    obtain ⟨m, hline, hm, hstart⟩ := hl.lineEnd hregion
    obtain ⟨-, -, rfl⟩ := hline.unique hline'
    obtain ⟨l₃, hend, -⟩ := hshows.exists_of_cons
    obtain ⟨hopen, n, hstop⟩ :=
      hm.closed_of_shows (List.concat_ne_nil _ _) rfl hwaits hstart hend
    rw [hintroduces] at hopen
    obtain ⟨rest, hfound⟩ := TerminatorLine.exists_read?_of_closed hstop
    exact ⟨((TerminatorLine.read?_eq_some_iff h.identifier_ne_nil).mp hfound).2, hopen⟩
  · rintro ⟨hblends, hopen⟩
    have hfound : h.line.read? (h.identifier ++ [Byte.newline]) = some h.identifier.length :=
      (TerminatorLine.read?_eq_some_iff h.identifier_ne_nil).mpr
        ⟨⟨[], [Byte.newline], rfl, (Nat.zero_add _).symm, List.forall_mem_nil _, .inr rfl, rfl⟩,
          hblends⟩
    have hread : h.isVerbatim ∨ Introducer.read? (h.identifier ++ [Byte.newline]) = none := by
      rwa [Introducer.read?_eq_none_iff, hintroduces, ← Bool.not_eq_true]
    obtain ⟨l₂, hshown, hl₂⟩ := hl.toClosingLine h.identifier_ne_nil hregion hwaits hread
      (TerminatorLine.passage_of_read? hfound _) rfl (Nat.zero_add _) hbelow
    obtain ⟨l₃, hend, hdepth, hdiagnostic⟩ := hl₂.toEnd
    exact ⟨l₃, hbegin.cons (hshown.append hend), hdepth, hdiagnostic⟩

/-- A name that has a blank behind its first byte, where the closing line may be indented. -/
def innerBlank : HeredocName where
  sign := some (Byte.ofChar '-')
  quote := some (Byte.ofChar '"')
  identifier := Byte.ofString "A B"
  sign_cases := by simp
  quote_cases := by simp
  identifier_ne_nil := by decide
  identifier_plain := by decide +kernel

/-- Only a blank in front is taken for indentation. -/
theorem closes_at_once_inner_blank : innerBlank.ClosesAtOnce := by
  rw [closes_at_once_iff]
  refine ⟨?_, .inr (by decide +kernel)⟩
  rintro ⟨-, hblank⟩
  exact absurd hblank (by decide)

/-- What a script is read as whose heredoc is closed at once. -/
theorem ClosesAtOnce.scan_eq {h : HeredocName} (hcloses : h.ClosesAtOnce) :
    (Lexer.calls Lexer.scan 5 (Lexer.ofBytes h.script)).map
        (fun r => r.1.map fun x => (x.1.kind, x.2))
      = .ok [(.heredocBegin, some h.opener), (.newLine, none), (.heredocEnd, some []),
        (.newLine, none), (.endOfInput, none)] := by
  obtain ⟨l, ⟨seen, hcalls, hseen⟩, -, -⟩ := hcloses
  rw [show Lexer.calls Lexer.scan 5 _ = _ from hcalls]
  exact congrArg Except.ok hseen

/-- A name that begins with a blank, where the closing line may be indented. -/
def indentedBlank : HeredocName where
  sign := some (Byte.ofChar '-')
  quote := some (Byte.ofChar '"')
  identifier := Byte.ofString " A"
  sign_cases := by simp
  quote_cases := by simp
  identifier_ne_nil := by decide
  identifier_plain := by decide +kernel

/-- A name that begins with an introducer. -/
def introducer : HeredocName where
  sign := none
  quote := some (Byte.ofChar '"')
  identifier := Byte.ofString "#\x7ba\x7d"
  sign_cases := nofun
  quote_cases := by simp
  identifier_ne_nil := by decide
  identifier_plain := by decide +kernel

/-- **Not every opener can be closed by its own identifier.** -/
theorem not_closes_at_once : ¬ indentedBlank.ClosesAtOnce ∧ ¬ introducer.ClosesAtOnce := by
  refine ⟨fun hcloses => ?_, fun hcloses => ?_⟩
  · refine absurd hcloses.scan_eq ?_
    decide +kernel
  · refine absurd hcloses.scan_eq ?_
    decide +kernel

end HeredocName

end ScriptLexer
