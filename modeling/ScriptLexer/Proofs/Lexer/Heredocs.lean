import ScriptLexer.Proofs.Lexer.Faces
import ScriptLexer.Proofs.Text.Lines

/-!
# Heredocs

A heredoc is read in two places: its opener in a line, and its body from the next line on. What
both say of it is put together here, for scripts that hold nothing but heredocs.

A decoded body shows the same bytes as a string of the same text, and a line feed behind them.

Any number of heredocs may open on one line. Each suspends the line of the one before, so that
their bodies follow in the order of the stack: the last one opened comes first.

## Main definitions

* `VerbatimHeredoc` — a heredoc with a verbatim body, by its identifier and its lines
* `Lexer.Waiting` — the heredocs that are suspended on a stack

## Main results

* `Lexer.heredoc_decodes_as_string` — strings and heredocs decode alike
* `Lexer.verbatim_heredocs_nest` — any number of heredocs on one line show their bodies as they are
-/

namespace ScriptLexer

/-! ### Openers -/

namespace HeredocStart

variable {identifier behind : List Byte}

/-- An identifier without quotes is read, behind whatever sign. -/
theorem identifier_bare (indented : Bool) (offset : Nat) (hne : identifier ≠ [])
    (hidentifier : ∀ b ∈ identifier, Byte.isIdentContinue b) (behind : List Byte) :
    HeredocStart.identifier indented offset (identifier ++ Byte.newline :: behind)
      = .accepted ⟨indented, false, offset, identifier.length, offset + identifier.length⟩ := by
  obtain ⟨b, name, rfl⟩ := List.exists_cons_of_ne_nil hne
  have hb : Byte.isIdentContinue b := hidentifier b List.mem_cons_self
  have hquote : ∀ {c : Byte}, Byte.isIdentContinue c = false → b ≠ c := by
    rintro c hc rfl
    rw [hb] at hc
    cases hc
  have hrun : ((b :: name) ++ Byte.newline :: behind).takeWhile Byte.isIdentContinue
      = b :: name := by
    rw [List.takeWhile_append_of_pos hidentifier, List.takeWhile_cons_of_neg (by decide),
      List.append_nil]
  rw [List.cons_append] at hrun ⊢
  rw [HeredocStart.identifier, hrun]
  simp [hquote (c := Byte.ofChar '\'') (by decide), hquote (c := Byte.ofChar '"') (by decide), hb]

/-- An identifier in quotes is read, behind whatever sign. -/
theorem identifier_quoted (indented : Bool) (offset : Nat) {quote : Byte}
    (hquote : quote = Byte.ofChar '\'' ∨ quote = Byte.ofChar '"') (hne : identifier ≠ [])
    (hidentifier : ∀ b ∈ identifier, b ≠ quote ∧ b ≠ Byte.newline) (behind : List Byte) :
    HeredocStart.identifier indented offset (quote :: (identifier ++ quote :: behind))
      = .accepted ⟨indented, quote == Byte.ofChar '\'', offset + 1, identifier.length,
        offset + identifier.length + 2⟩ := by
  have hrun : ((identifier ++ quote :: behind).takeWhile
      fun b => b != quote && b != Byte.newline) = identifier := by
    rw [List.takeWhile_append_of_pos, List.takeWhile_cons_of_neg (by simp), List.append_nil]
    intro b hb
    simpa using hidentifier b hb
  have hread : HeredocStart.identifier indented offset (quote :: (identifier ++ quote :: behind))
      = quoted indented quote offset (identifier ++ quote :: behind) :=
    if_pos (by simpa using hquote)
  rw [hread, quoted, hrun]
  simp [hne]

/-- What follows the `<<` is the identifier, unless a sign stands in front of it. -/
theorem read_of_head {b : Byte} (hhyphen : b ≠ Byte.ofChar '-') (htilde : b ≠ Byte.ofChar '~')
    (rest : List Byte) : read (b :: rest) = HeredocStart.identifier false 0 (b :: rest) := by
  rw [read.eq_def]
  split
  · rename_i heq
    exact absurd (List.head_eq_of_cons_eq heq) hhyphen
  · rename_i heq
    exact absurd (List.head_eq_of_cons_eq heq) htilde
  · rfl

/-- The identifier of an opener without quotes. -/
theorem read_bare (hne : identifier ≠ [])
    (hidentifier : ∀ b ∈ identifier, Byte.isIdentContinue b) :
    read (identifier ++ Byte.newline :: behind)
      = .accepted ⟨false, false, 0, identifier.length, identifier.length⟩ := by
  have hread := identifier_bare false 0 hne hidentifier behind
  obtain ⟨b, name, rfl⟩ := List.exists_cons_of_ne_nil hne
  have hsign : ∀ {c : Byte}, Byte.isIdentContinue c = false → b ≠ c := by
    rintro c hc rfl
    rw [hidentifier b List.mem_cons_self] at hc
    cases hc
  rw [Nat.zero_add] at hread
  rw [← hread]
  exact read_of_head (hsign (by decide)) (hsign (by decide)) _

/-- The identifier of an opener in single quotes. -/
theorem read_quoted (hne : identifier ≠ [])
    (hidentifier : ∀ b ∈ identifier, b ≠ Byte.ofChar '\'' ∧ b ≠ Byte.newline) :
    read (Byte.ofChar '\'' :: (identifier ++ Byte.ofChar '\'' :: behind))
      = .accepted ⟨false, true, 1, identifier.length, identifier.length + 2⟩ := by
  have hread := identifier_quoted false 0 (.inl rfl) hne hidentifier behind
  rw [Nat.zero_add identifier.length] at hread
  exact (read_of_head (by decide) (by decide) _).trans hread

end HeredocStart

/-- An opener that does not touch the token in front of it is read. -/
theorem Lexeme.read_heredoc {lookback : Lookback} (habuts : lookback.abuts = false)
    {rest : List Byte} {opener : HeredocOpener} (hstart : HeredocStart.read rest = .accepted opener)
    (lineStart : Bool) :
    read lookback lineStart (Byte.ofChar '<') (Byte.ofChar '<' :: rest) = .heredoc opener := by
  have hless : read lookback lineStart (Byte.ofChar '<') (Byte.ofChar '<' :: rest)
      = less lookback (Byte.ofChar '<' :: rest) := rfl
  rw [hless]
  show (if lookback.abuts then _ else _) = _
  rw [habuts, hstart]
  rfl

namespace Lexer

variable {source bytes behind text : List Byte} {s : Stack} {d : Option Diagnostic} {l : Lexer}
  {lookback : Lookback}

namespace Faces

/-- The opener of a heredoc, whose identifier stands behind `offset` bytes of its text. -/
theorem opener {identifier : List Byte} {indented isVerbatim : Bool} {offset : Nat}
    (h : l.Faces source (Byte.ofChar '<' :: Byte.ofChar '<' :: (text ++ behind)) s d)
    (hregion : s.top.region.ReadsStatement (Byte.ofChar '<'))
    (habuts : s.top.lookback.abuts = false)
    (hstart : HeredocStart.read (text ++ behind)
      = .accepted ⟨indented, isVerbatim, offset, identifier.length, text.length⟩)
    (hidentifier : ((text ++ behind).drop offset).take identifier.length = identifier) :
    ∃ (l' : Lexer) (heredoc : Heredoc),
      l.Shows .heredocBegin (some (Byte.ofChar '<' :: Byte.ofChar '<' :: text)) l'
      ∧ heredoc.WaitsFor source ⟨identifier, indented⟩ isVerbatim
      ∧ l'.Faces source behind
        ⟨.enter (.heredocLine heredoc), s.top.record .heredocBegin :: s.below⟩ d := by
  obtain ⟨l', heredoc, hshows, hwaits, hl'⟩ :=
    h.heredoc (by decide) hregion (Lexeme.read_heredoc habuts hstart)
  refine ⟨l', heredoc, ?_, ?_, ?_⟩
  · simpa [Nat.add_comm 2] using hshows
  · simpa [Nat.add_comm 2, hidentifier] using hwaits
  · simpa [Nat.add_comm 2, Stack.commit] using hl'

/-- From the end of the line with its opener on, a heredoc is read up to its closing line. -/
theorem toClosingLine (h : l.Faces source (Byte.newline :: (text ++ behind)) s d) (hne : text ≠ [])
    {heredoc : Heredoc} {close : TerminatorLine} {isVerbatim : Bool} {p : Passage} {n : Nat}
    {f : Frame} {below : List Frame} (hregion : s.top.region = .heredocLine heredoc)
    (hwaits : heredoc.WaitsFor source close isVerbatim)
    (hintroducer : isVerbatim ∨ Introducer.read? (text ++ behind) = none)
    (hp : (close.style isVerbatim).passage true (text ++ behind) = p) (hstop : p.stop = .closed n)
    (hlength : p.length + n = text.length) (hbelow : s.below = f :: below) :
    ∃ l', l.ShowsAll [(.newLine, none), (.heredocEnd, some p.text)] l'
      ∧ l'.Faces source behind ⟨f.record .heredocEnd, below⟩
        (d.or (p.fault.map (·.shift (l.pos + 1)))) := by
  have hne : text ++ behind ≠ [] := List.append_ne_nil_of_left_ne_nil hne behind
  obtain ⟨m, hline, hm, hstart⟩ := h.lineEnd hregion
  obtain ⟨l', hend, hl'⟩ := hm.body hne rfl hwaits hintroducer hstart hp
  have hpos : m.pos = l.pos + 1 := by
    have hbefore := h.pos
    have hbehind := hm.pos
    rw [List.length_cons] at hbefore
    omega
  rw [hstop, hpos, Stop.length, hlength, List.drop_left] at hl'
  rw [hstop] at hend
  refine ⟨l', hline.cons hend.showsAll, ?_⟩
  simpa [Ending.body, Stack.commit, hbelow] using hl'

/-- The end of the last line, and the end of the script. -/
theorem toEnd (h : l.Faces source [Byte.newline] ⟨⟨.statements, lookback⟩, []⟩ d) :
    ∃ l', l.ShowsAll [(.newLine, none), (.endOfInput, none)] l' ∧ l'.depth = 1
      ∧ l'.diagnostic = d := by
  obtain ⟨m, hline, hm⟩ := h.bare (by decide) trivial (fun _ => rfl)
  refine ⟨m, hline.cons (hm.endOfInput rfl).showsAll, hm.depth, hm.diagnostic⟩

end Faces

/-! ### Strings and heredocs -/

/-- A string that ends with its script is filled by all bytes up to the closing quote. -/
theorem Shows.fills
    (hshows : (ofBytes (Byte.ofChar '"' :: (bytes ++ [Byte.ofChar '"']))).Shows .string
      (some text) l)
    (hpos : l.pos = bytes.length + 2) :
    let p := (Style.decoded (Byte.ofChar '"')).passage true (bytes ++ [Byte.ofChar '"'])
    Style.Fills (Byte.ofChar '"') true bytes ∧ p.text = text
      ∧ l.diagnostic = p.fault.map (·.shift 1) := by
  intro p
  have hp : (Style.decoded (Byte.ofChar '"')).passage false (bytes ++ [Byte.ofChar '"']) = p := by
    rw [Style.passage_decoded]
    exact (Style.passage_decoded ..).symm
  obtain ⟨m, hm, hfaces⟩ := (faces_ofBytes (Byte.ofChar '"' :: (bytes ++ [Byte.ofChar '"']))).quoted
    (by decide) trivial (fun _ => rfl) hp
  obtain ⟨hkind, htext, rfl⟩ := hshows.unique hm
  have hstop : p.stop = .closed 1 := by
    rcases Style.passage_stop_cases (.decoded (Byte.ofChar '"')) true (bytes ++ [Byte.ofChar '"'])
      with ⟨lineStart, hstop⟩ | ⟨hend, -⟩
    · rw [Style.stop?_decoded] at hstop
      split at hstop
      · exact (Option.some.inj hstop).symm
      · split at hstop
        · have hstop : p.stop = .interpolation := (Option.some.inj hstop).symm
          rw [hstop] at hkind
          cases hkind
        · cases hstop
    · have hend : p.stop = .endOfInput := hend
      rw [hend] at hkind
      cases hkind
  rw [hstop] at hfaces
  have hle : p.length + 1 ≤ (bytes ++ [Byte.ofChar '"']).length := by
    have hle := Style.length_stop_le (.decoded (Byte.ofChar '"')) true (bytes ++ [Byte.ofChar '"'])
    rwa [show (Style.passage _ _ _).stop = _ from hstop] at hle
  have hlength : p.length = bytes.length := by
    have hahead := hfaces.pos
    simp only [List.length_drop, List.length_cons, List.length_append, List.length_nil,
      Stop.length] at hahead hle
    omega
  refine ⟨⟨hstop, hlength⟩, (Option.some.inj htext).symm, ?_⟩
  rw [hfaces.diagnostic]
  simp [Ending.quoted, ofBytes, pos, Tape.ofBytes, Tape.pos]

/-- **Strings and heredocs decode alike.** If bytes between two quotes are one string, the same
bytes as the body of a heredoc show what the string shows and a line feed, unless a line of the text
ends the heredoc earlier; and what is reported in the one is reported in the other, as far behind
the beginning of the body as it was behind the quote. -/
theorem heredoc_decodes_as_string {identifier : List Byte} (hne : identifier ≠ [])
    (hidentifier : ∀ b ∈ identifier, Byte.isIdentContinue b)
    (hshows : (ofBytes (Byte.ofChar '"' :: (bytes ++ [Byte.ofChar '"']))).Shows .string
      (some text) l)
    (hpos : l.pos = bytes.length + 2)
    (hlines : ∀ line ∈ Reference.lines (bytes ++ [Byte.newline]),
      ∀ behind, Line.endsHere behind → line ≠ identifier ++ behind) :
    let opener := Byte.ofChar '<' :: Byte.ofChar '<' :: identifier
    ∃ l', (ofBytes (opener ++ Byte.newline :: (bytes ++ Byte.newline :: identifier
          ++ [Byte.newline]))).ShowsAll
        [(.heredocBegin, some opener), (.newLine, none),
          (.heredocEnd, some (text ++ [Byte.newline])), (.newLine, none), (.endOfInput, none)] l'
      ∧ l'.diagnostic = l.diagnostic.map
        (·.shift ((opener ++ [Byte.newline]).length - 1)) := by
  intro opener
  obtain ⟨hfills, htext, hdiagnostic⟩ := hshows.fills hpos
  have hquote : (Byte.ofChar '"').isInert := by decide
  have hline : Byte.newline ∉ identifier := by
    intro hmem
    have hnewline := hidentifier _ hmem
    revert hnewline
    decide
  let body := bytes ++ Byte.newline :: identifier
  have hsplit : body ++ [Byte.newline] = bytes ++ Byte.newline :: (identifier ++ [Byte.newline]) :=
    List.append_assoc ..
  have hends : Line.endsHere [Byte.newline] := rfl
  have hbody := Style.passage_decodedLines hquote hline hends hfills hlines
  rw [← hsplit] at hbody
  have hintroducer : Introducer.read? (body ++ [Byte.newline]) = none := by
    rw [Introducer.read?_eq_none_iff, hsplit, Reference.introduces_append_cons (by decide),
      hfills.introduces_eq_false hquote]
  obtain ⟨l₁, heredoc, hbegin, hwaits, hl₁⟩ :=
    (faces_ofBytes (opener ++ Byte.newline :: (body ++ [Byte.newline]))).opener trivial rfl
      (HeredocStart.read_bare hne hidentifier) (by simp)
  have hlength : bytes.length + 1 + identifier.length = body.length := by
    rw [List.length_append, List.length_cons]
    omega
  obtain ⟨l₂, hshown, hl₂⟩ := hl₁.toClosingLine (by simp [body]) rfl hwaits (.inr hintroducer) hbody
    rfl (by rw [← hlength, ← hfills.length]; rfl) rfl
  obtain ⟨l₃, hend, -, hl₃⟩ := hl₂.toEnd
  refine ⟨l₃, ?_, ?_⟩
  · rw [← htext]
    exact hbegin.cons (hshown.append hend)
  · have hpos : l₁.pos = opener.length := by
      have hahead := hl₁.pos
      rw [List.length_append] at hahead
      omega
    rw [hl₃, hdiagnostic, hpos, Option.none_or, Option.map_map, List.length_append]
    congr 1
    funext f
    show f.shift _ = (f.shift 1).shift _
    rw [Diagnostic.shift_shift]
    rfl

/-- A text with a line feed that an escape takes, and with a malformed escape. -/
def wrappedText : List Byte :=
  Byte.ofString "\\\nE\\xq"

theorem heredoc_decodes_as_string_wrapped :
    let opener := Byte.ofString "<<E"
    ∃ l, (ofBytes (opener ++ Byte.newline :: (wrappedText ++ Byte.newline :: Byte.ofString "E"
          ++ [Byte.newline]))).ShowsAll
        [(.heredocBegin, some opener), (.newLine, none),
          (.heredocEnd, some (Byte.ofString "Eq\n")), (.newLine, none), (.endOfInput, none)] l
      ∧ l.diagnostic = some ⟨7, .invalidHexEscape⟩ := by
  let l : Lexer := ⟨⟨(Byte.ofString "\"EqE\\xq\"").toArray, [], [], some ⟨4, .invalidHexEscape⟩⟩,
    ⟨⟨.statements, ⟨.string, true, false⟩⟩, []⟩⟩
  have hscan : (ofBytes (Byte.ofChar '"' :: (wrappedText ++ [Byte.ofChar '"']))).scan
      = .ok ((⟨0, .string, some ⟨1, 3⟩⟩, some (Byte.ofString "Eq")), l) := by
    decide +kernel
  have hlines : Reference.lines (wrappedText ++ [Byte.newline])
      = [Byte.ofChar '\\' :: Byte.ofString "\nE\\xq\n", []] := by
    decide +kernel
  refine heredoc_decodes_as_string (by decide) (List.all_eq_true.mp rfl) ⟨_, hscan, rfl⟩ rfl ?_
  rw [hlines]
  rintro line hline behind - heq
  have hhead := congrArg List.head? heq
  rcases List.mem_cons.mp hline with rfl | hline
  · exact absurd hhead (show some (Byte.ofChar '\\') ≠ some (Byte.ofChar 'E') by decide)
  · rw [List.mem_singleton.mp hline] at hhead
    cases hhead

end Lexer

/-! ### Many heredocs on one line -/

/-- A heredoc with a verbatim body: its identifier, and the lines of its body, without the line
feeds that end them. Its identifier can stand in single quotes, and no line of its body closes
it. -/
structure VerbatimHeredoc where
  identifier : List Byte
  lines : List (List Byte)
  identifier_ne_nil : identifier ≠ []
  identifier_plain : ∀ b ∈ identifier, b ≠ Byte.ofChar '\'' ∧ b ≠ Byte.newline
  line_open : ∀ line ∈ lines, Byte.newline ∉ line ∧ line ≠ identifier ∧ line ≠ identifier ++ [0x0D]

namespace VerbatimHeredoc

variable (h : VerbatimHeredoc)

/-- The bytes of the opener behind its `<<`. -/
def name : List Byte :=
  Byte.ofChar '\'' :: (h.identifier ++ [Byte.ofChar '\''])

/-- The opener. -/
def opener : List Byte :=
  Byte.ofChar '<' :: Byte.ofChar '<' :: h.name

/-- The body, every line of which has a line feed at its end. -/
def body : List Byte :=
  h.lines.flatMap (· ++ [Byte.newline])

/-- A script that opens heredocs on its first line, with a blank between two openers, and has
their bodies behind it, each with its closing line, that of the last opener first. -/
def script (heredocs : List VerbatimHeredoc) : List Byte :=
  [0x20].intercalate (heredocs.map opener) ++ Byte.newline ::
    heredocs.reverse.flatMap fun h => h.body ++ h.identifier ++ [Byte.newline]

/-- Behind its first opener, the first line has a blank and an opener for each of the others. -/
theorem intercalate_cons (opener : List Byte) (openers : List (List Byte)) :
    [0x20].intercalate (opener :: openers) = opener ++ openers.flatMap (0x20 :: ·) := by
  induction openers generalizing opener with
  | nil => simp
  | cons next openers ih =>
    rw [List.intercalate_cons_cons, ih]
    simp

theorem newline_not_mem : Byte.newline ∉ h.identifier :=
  fun hmem => (h.identifier_plain _ hmem).2 rfl

/-- The body is read as it is, up to its closing line. -/
theorem passage_body {behind : List Byte} (hends : Line.endsHere behind) :
    ((⟨h.identifier, false⟩ : TerminatorLine).style true).passage true
        (h.body ++ h.identifier ++ behind)
      = ⟨h.body, h.body.length, .closed h.identifier.length, none⟩ := by
  rw [List.append_assoc]
  refine (Style.passage_verbatimLines ?_ (TerminatorLine.read?_append hends)).trans ?_
  · intro line hline
    obtain ⟨hnewline, hne, hreturn⟩ := h.line_open line hline
    exact ⟨hnewline, TerminatorLine.read?_line h.newline_not_mem hnewline hne hreturn⟩
  · simp [Passage.behindBytes, Passage.empty, body]

end VerbatimHeredoc

namespace Lexer

/-- The frames of a stack, from the inside out, are those of lines that open these heredocs, and
the frame of the script. -/
def Waiting (source : List Byte) : List VerbatimHeredoc → List Frame → Prop
  | [], frames => ∃ lookback, frames = [⟨.statements, lookback⟩]
  | _ :: _, [] => False
  | h :: opened, f :: frames =>
    (∃ heredoc, f.region = .heredocLine heredoc
        ∧ heredoc.WaitsFor source ⟨h.identifier, false⟩ true)
      ∧ Waiting source opened frames

variable {source bytes behind text : List Byte} {s : Stack} {l : Lexer} {h : VerbatimHeredoc}
  {opened : List VerbatimHeredoc} {f : Frame} {frames : List Frame}

theorem Waiting.length (hwaiting : Waiting source opened frames) :
    frames.length = opened.length + 1 := by
  induction opened generalizing frames with
  | nil =>
    obtain ⟨lookback, rfl⟩ := hwaiting
    rfl
  | cons h opened ih =>
    cases frames with
    | nil => cases hwaiting
    | cons f frames => rw [List.length_cons, ih hwaiting.2, List.length_cons]

/-- What waits is told by the regions of the frames. -/
theorem Waiting.congr_top {g : Frame} (hwaiting : Waiting source opened (f :: frames))
    (hregion : g.region = f.region) : Waiting source opened (g :: frames) := by
  cases opened with
  | nil =>
    obtain ⟨lookback, hframes⟩ := hwaiting
    cases hframes
    obtain ⟨region, lookback'⟩ := g
    obtain rfl : region = .statements := hregion
    exact ⟨lookback', rfl⟩
  | cons h opened =>
    obtain ⟨⟨heredoc, hline, hwaits⟩, hframes⟩ := hwaiting
    exact ⟨⟨heredoc, hregion.trans hline, hwaits⟩, hframes⟩

/-- A token leaves what waits. -/
theorem Waiting.record (hwaiting : Waiting source opened (f :: frames)) (kind : Kind) :
    Waiting source opened (f.record kind :: frames) := by
  refine hwaiting.congr_top ?_
  cases opened with
  | nil =>
    obtain ⟨lookback, hframes⟩ := hwaiting
    cases hframes
    rfl
  | cons h opened =>
    obtain ⟨⟨heredoc, hregion, -⟩, -⟩ := hwaiting
    rw [Frame.record, hregion]
    rfl

/-- Where heredocs wait, any byte but a line feed is read as that of a statement. -/
theorem Waiting.readsStatement (hwaiting : Waiting source opened (f :: frames)) {b : Byte}
    (hb : b ≠ Byte.newline) : f.region.ReadsStatement b := by
  cases opened with
  | nil =>
    obtain ⟨lookback, hframes⟩ := hwaiting
    cases hframes
    trivial
  | cons h opened =>
    obtain ⟨⟨heredoc, hregion, -⟩, -⟩ := hwaiting
    rw [hregion]
    exact hb

namespace Faces

/-- One more opener on a line suspends the line. -/
theorem openOne (hl : l.Faces source (h.opener ++ behind) s none)
    (hwaiting : Waiting source opened s.frames) (habuts : s.top.lookback.abuts = false) :
    ∃ l' s', l.Shows .heredocBegin (some h.opener) l' ∧ l'.Faces source behind s' none
      ∧ Waiting source (h :: opened) s'.frames := by
  have hstart : HeredocStart.read (h.name ++ behind)
      = .accepted ⟨false, true, 1, h.identifier.length, h.name.length⟩ := by
    have hread : HeredocStart.read
        (Byte.ofChar '\'' :: (h.identifier ++ Byte.ofChar '\'' :: behind)) = _ :=
      HeredocStart.read_quoted h.identifier_ne_nil h.identifier_plain
    simpa [VerbatimHeredoc.name] using hread
  obtain ⟨l', heredoc, hshows, hwaits, hl'⟩ := hl.opener
    (hwaiting.readsStatement (by decide)) habuts hstart (by simp [VerbatimHeredoc.name])
  exact ⟨l', _, hshows, hl', ⟨heredoc, rfl, hwaits⟩, hwaiting.record _⟩

/-- **Openers on one line suspend it one after the other.** -/
theorem openAll (heredocs : List VerbatimHeredoc)
    (hl : l.Faces source (heredocs.flatMap (0x20 :: ·.opener) ++ behind) s none)
    (hwaiting : Waiting source opened s.frames) :
    ∃ l' s', l.ShowsAll (heredocs.map fun h => (.heredocBegin, some h.opener)) l'
      ∧ l'.Faces source behind s' none ∧ Waiting source (heredocs.reverse ++ opened) s'.frames := by
  induction heredocs generalizing l s opened with
  | nil => exact ⟨l, s, .nil l, hl, hwaiting⟩
  | cons h heredocs ih =>
    rw [List.flatMap_cons, List.append_assoc] at hl
    have hregion : s.top.region.holdsStatements :=
      (hwaiting.readsStatement (b := 0x20) (by decide)).holdsStatements
    obtain ⟨m, hm, hnext⟩ := hl.skip (by decide) hregion
    obtain ⟨k, s', hshows, hk, hwaiting'⟩ :=
      hm.openOne (hwaiting.congr_top rfl) (Bool.and_false _)
    obtain ⟨l', s'', hall, hl', hwaiting''⟩ := ih hk hwaiting'
    refine ⟨l', s'', (hshows.of_next_eq hnext).cons hall, hl', ?_⟩
    simpa using hwaiting''

/-- Openers with a blank between two of them. -/
theorem openLine (heredocs : List VerbatimHeredoc)
    (hl : l.Faces source ([0x20].intercalate (heredocs.map VerbatimHeredoc.opener) ++ behind) s
      none)
    (hwaiting : Waiting source opened s.frames) (habuts : s.top.lookback.abuts = false) :
    ∃ l' s', l.ShowsAll (heredocs.map fun h => (.heredocBegin, some h.opener)) l'
      ∧ l'.Faces source behind s' none ∧ Waiting source (heredocs.reverse ++ opened) s'.frames := by
  cases heredocs with
  | nil => exact ⟨l, s, .nil l, hl, hwaiting⟩
  | cons h heredocs =>
    rw [List.map_cons, VerbatimHeredoc.intercalate_cons, List.flatMap_map, List.append_assoc] at hl
    obtain ⟨m, s', hshows, hm, hwaiting'⟩ := hl.openOne hwaiting habuts
    obtain ⟨l', s'', hall, hl', hwaiting''⟩ := openAll heredocs hm hwaiting'
    refine ⟨l', s'', hshows.cons hall, hl', ?_⟩
    simpa using hwaiting''

/-- The body of the heredoc that was opened last is read, and the line before goes on. -/
theorem closeOne (hl : l.Faces source (Byte.newline :: (h.body ++ h.identifier ++ behind)) s none)
    (hends : Line.endsHere behind) (hwaiting : Waiting source (h :: opened) s.frames) :
    ∃ l' s', l.ShowsAll [(.newLine, none), (.heredocEnd, some h.body)] l'
      ∧ l'.Faces source behind s' none ∧ Waiting source opened s'.frames := by
  obtain ⟨⟨heredoc, hregion, hwaits⟩, hframes⟩ := hwaiting
  obtain ⟨f, below, hbelow⟩ : ∃ f below, s.below = f :: below := by
    refine List.exists_cons_of_length_pos ?_
    rw [hframes.length]
    exact Nat.succ_pos _
  obtain ⟨l', hshown, hl'⟩ := hl.toClosingLine (by simp [h.identifier_ne_nil]) hregion hwaits
    (.inl rfl) (h.passage_body hends) rfl (by simp) hbelow
  rw [hbelow] at hframes
  exact ⟨l', _, hshown, hl', hframes.record _⟩

/-- **The bodies are read in the order of the stack.** -/
theorem closeAll
    (hl : l.Faces source
      (Byte.newline :: opened.flatMap fun h => h.body ++ h.identifier ++ [Byte.newline]) s none)
    (hwaiting : Waiting source opened s.frames) :
    ∃ l' lookback, l.ShowsAll
        (opened.flatMap fun h => [(.newLine, none), (.heredocEnd, some h.body)]) l'
      ∧ l'.Faces source [Byte.newline] ⟨⟨.statements, lookback⟩, []⟩ none := by
  induction opened generalizing l s with
  | nil =>
    obtain ⟨lookback, hframes⟩ := hwaiting
    obtain ⟨top, below⟩ := s
    cases hframes
    exact ⟨l, lookback, .nil l, hl⟩
  | cons h opened ih =>
    rw [List.flatMap_cons, List.append_assoc, List.singleton_append] at hl
    obtain ⟨m, s', hshown, hm, hwaiting'⟩ := hl.closeOne rfl hwaiting
    obtain ⟨l', lookback, hall, hl'⟩ := ih hm hwaiting'
    exact ⟨l', lookback, hshown.append hall, hl'⟩

end Faces

/-- **Any number of heredocs may open on one line,** and their bodies are read as they are, in the
order of the stack. -/
theorem verbatim_heredocs_nest (heredocs : List VerbatimHeredoc) :
    ∃ l l', (ofBytes (VerbatimHeredoc.script heredocs)).ShowsAll
        (heredocs.map fun h => (.heredocBegin, some h.opener)) l
      ∧ l.depth = heredocs.length + 1
      ∧ l.ShowsAll
        (heredocs.reverse.flatMap (fun h => [(.newLine, none), (.heredocEnd, some h.body)])
          ++ [(.newLine, none), (.endOfInput, none)]) l'
      ∧ l'.depth = 1 ∧ l'.diagnostic = none := by
  have hbase : Waiting (VerbatimHeredoc.script heredocs) [] Stack.base.frames := ⟨.fresh, rfl⟩
  obtain ⟨l, s, hopeners, hl, hwaiting⟩ :=
    (faces_ofBytes (VerbatimHeredoc.script heredocs)).openLine heredocs hbase rfl
  rw [List.append_nil] at hwaiting
  obtain ⟨m, lookback, hbodies, hm⟩ := hl.closeAll hwaiting
  obtain ⟨l', hend, hdepth, hdiagnostic⟩ := hm.toEnd
  refine ⟨l, l', hopeners, ?_, hbodies.append hend, hdepth, hdiagnostic⟩
  have hlength := hwaiting.length
  rw [List.length_reverse] at hlength
  exact hl.depth.trans hlength

end Lexer

namespace VerbatimHeredoc

/-- A heredoc with a line that begins with its identifier and goes on behind it. -/
def nearlyClosed : VerbatimHeredoc where
  identifier := Byte.ofString "A"
  lines := [Byte.ofString "A "]
  identifier_ne_nil := by decide
  identifier_plain := List.forall_mem_singleton.mpr (by decide)
  line_open := List.forall_mem_singleton.mpr (by decide)

/-- A heredoc with a line that has its identifier in the other case. -/
def otherCase : VerbatimHeredoc where
  identifier := Byte.ofString "B"
  lines := [Byte.ofString "b"]
  identifier_ne_nil := by decide
  identifier_plain := List.forall_mem_singleton.mpr (by decide)
  line_open := List.forall_mem_singleton.mpr (by decide)

end VerbatimHeredoc

namespace Lexer

/-- The last opener's body comes first, and a line that only begins with the identifier is text. -/
theorem verbatim_heredocs_nest_two :
    ∃ l l', (ofBytes (Byte.ofString "<<'A' <<'B'\nb\nB\nA \nA\n")).ShowsAll
        [(.heredocBegin, some (Byte.ofString "<<'A'")),
          (.heredocBegin, some (Byte.ofString "<<'B'"))] l
      ∧ l.depth = 3
      ∧ l.ShowsAll
        [(.newLine, none), (.heredocEnd, some (Byte.ofString "b\n")), (.newLine, none),
          (.heredocEnd, some (Byte.ofString "A \n")), (.newLine, none), (.endOfInput, none)] l'
      ∧ l'.depth = 1 ∧ l'.diagnostic = none :=
  verbatim_heredocs_nest [.nearlyClosed, .otherCase]

end Lexer

end ScriptLexer
