import ScriptLexer.Proofs.Lexer.Reading

/-!
# Segments of text

The readers of literals with text differ in how their text is read, which is their style, and in
what they make of the three ways in which a text stops. Everything else they do alike: the text is
decoded in place, what closes it is read, and what is missing is reported at the token. So each of
them is `Reading.text` of its style and its ending.

## Main definitions

* `Ending` — what a reader makes of the way in which its text stops
* `Reading.text` — the reading of a segment, of any style and with any ending
* `Reading.OfPassage` — what a reading tells of the passage that was read

## Main results

* `Reading.verbatim_eq`, `Reading.segment_eq`, `Reading.bodySegment_eq` — the readers are segments
* `Reading.introduces_text` — behind a segment that is interrupted stands an introducer
-/

namespace ScriptLexer

/-- What a reader makes of a text that stops: the kind of its token, what the token does to the open
constructs, and what is reported. -/
structure Ending where
  kind : Kind
  shift : Shift
  fault : Option Malformation
  deriving DecidableEq, Repr

namespace Ending

/-- How verbatim quoted text ends. -/
def verbatim : Stop → Ending
  | .closed _ => ⟨.string, .stay, none⟩
  | .interpolation | .endOfInput => ⟨.illegal, .stay, some .unterminatedString⟩

/-- How decoded quoted text ends. -/
def quoted (close : Byte) (resumed : Bool) : Stop → Ending
  | .interpolation => ⟨.stringPart, if resumed then .stay else .push (.quoted close), none⟩
  | .closed _ => ⟨.string, if resumed then .pop else .stay, none⟩
  | .endOfInput => ⟨.illegal, .stay, some .unterminatedString⟩

/-- How the body of a heredoc ends. -/
def body : Stop → Ending
  | .interpolation => ⟨.heredocPart, .stay, none⟩
  | .closed _ => ⟨.heredocEnd, .pop, none⟩
  | .endOfInput => ⟨.illegal, .stay, some .unterminatedHeredoc⟩

end Ending

namespace Reading

/-- The reading of a segment of text, for a token that began at `pos`. -/
def text (pos : Nat) (style : Style) (lineStart : Bool) (ending : Stop → Ending) (t : Tape) :
    Reading :=
  let p := style.passage lineStart t.rest
  let tape := (t.transcriptOf [] 0 p).tape.keep ((ending p.stop).fault.map (⟨pos, ·⟩))
  withLiteral pos (ending p.stop).kind (textSpan style lineStart t) (ending p.stop).shift
    (tape.advanceBy p.stop.length)

variable (pos : Nat) (close : Byte) (t : Tape)

theorem verbatim_eq :
    verbatim pos close t = .ok (text pos (.verbatim close) false Ending.verbatim t) := by
  rw [verbatim, Tape.transcribe_eq]
  simp only [bind, Except.bind, decodedSpan_transcriptOf, text]
  simp only [Tape.transcriptOf]
  cases ((Style.verbatim close).passage false t.rest).stop <;>
    simp [Ending.verbatim, Stop.length, Tape.noteAt_eq_keep, Tape.advanceBy_zero] <;> rfl

theorem segment_eq (resumed : Bool) :
    segment pos close resumed t
      = .ok (text pos (.decoded close) false (Ending.quoted close resumed) t) := by
  rw [segment, Tape.transcribe_eq]
  simp only [bind, Except.bind, decodedSpan_transcriptOf, text]
  simp only [Tape.transcriptOf]
  cases ((Style.decoded close).passage false t.rest).stop <;>
    simp [Ending.quoted, Stop.length, Tape.noteAt_eq_keep, Tape.advanceBy_zero] <;> rfl

theorem bodySegment_eq {heredoc : Heredoc} {style : Style}
    (hstyle : heredocStyle heredoc t = .ok style) :
    bodySegment heredoc t = .ok (text t.pos style (t.isLineStart t.pos) Ending.body t) := by
  rw [bodySegment, hstyle]
  simp only [bind, Except.bind, Tape.transcribe_eq, decodedSpan_transcriptOf, text]
  simp only [Tape.transcriptOf]
  cases (style.passage (t.isLineStart t.pos) t.rest).stop <;>
    simp [Ending.body, Stop.length, Tape.noteAt_eq_keep, Tape.advanceBy_zero] <;> rfl

/-- A segment reads the passage and what closes it. -/
theorem rest_text (style : Style) (lineStart : Bool) (ending : Stop → Ending) :
    let p := style.passage lineStart t.rest
    (text pos style lineStart ending t).tape.rest = t.rest.drop (p.length + p.stop.length) := by
  intro p
  show (((t.transcriptOf [] 0 p).tape.keep _).advanceBy p.stop.length).rest = _
  rw [Tape.rest_advanceBy, Tape.rest_keep,
    (Tape.onward_transcriptOf style lineStart t).rest, List.drop_drop]

/-- A segment ends behind what closes its passage. -/
theorem pos_text (style : Style) (lineStart : Bool) (ending : Stop → Ending) :
    let p := style.passage lineStart t.rest
    (text pos style lineStart ending t).tape.pos = t.pos + (p.length + p.stop.length) := by
  intro p
  have hle : p.length + p.stop.length ≤ t.rest.length := Style.length_stop_le ..
  have hmove := Tape.onward_transcriptOf style lineStart t
  have hrest : (t.transcriptOf [] 0 p).tape.rest.length = t.rest.length - p.length := by
    rw [hmove.rest, List.length_drop]
  have hpos : (t.transcriptOf [] 0 p).tape.pos = t.pos + p.length := hmove.pos
  show (((t.transcriptOf [] 0 p).tape.keep _).advanceBy p.stop.length).pos = _
  rw [Tape.pos_advanceBy, Tape.rest_keep, Tape.pos_keep, hrest, hpos]
  omega

/-- A segment reports the first fault of its passage, or else what its ending does. -/
theorem diagnostic_text (style : Style) (lineStart : Bool) (ending : Stop → Ending) :
    let p := style.passage lineStart t.rest
    (text pos style lineStart ending t).tape.diagnostic
      = (t.diagnostic.or (p.fault.map (·.shift t.pos))).or
          ((ending p.stop).fault.map (⟨pos, ·⟩)) :=
  rfl

/-- The literal of a segment is the text of its passage. -/
theorem slice?_text (style : Style) (lineStart : Bool) (ending : Stop → Ending) :
    let r := text pos style lineStart ending t
    r.token.literal.bind (·.slice? r.tape.buffer) = some (style.passage lineStart t.rest).text := by
  intro r
  show (textSpan style lineStart t).slice?
    (((t.transcriptOf [] 0 _).tape.keep _).advanceBy _).buffer = _
  rw [Tape.buffer_advanceBy, Tape.buffer_keep]
  exact Tape.slice?_transcriptOf t _

/-- What a reading tells of a passage that was read for a token at `pos`. -/
structure OfPassage (pos : Nat) (ending : Stop → Ending) (t : Tape) (p : Passage) (r : Reading) :
    Prop where
  token : r.token.pos = pos ∧ r.token.kind = (ending p.stop).kind
  literal : r.token.literal.bind (·.slice? r.tape.buffer) = some p.text
  ahead : r.tape.pos = t.pos + (p.length + p.stop.length)
  rest : r.tape.rest = t.rest.drop (p.length + p.stop.length)
  diagnostic : r.tape.diagnostic = (t.diagnostic.or (p.fault.map (·.shift t.pos))).or
    ((ending p.stop).fault.map (⟨pos, ·⟩))

theorem ofPassage_text (style : Style) (lineStart : Bool) (ending : Stop → Ending) :
    OfPassage pos ending t (style.passage lineStart t.rest) (text pos style lineStart ending t) :=
  ⟨⟨rfl, rfl⟩, slice?_text .., pos_text .., rest_text .., diagnostic_text ..⟩

/-- **Behind a segment that is interrupted stands an introducer,** and the style decodes. -/
theorem introduces_text {style : Style} {lineStart : Bool} (ending : Stop → Ending)
    (hstop : (style.passage lineStart t.rest).stop = .interpolation) :
    style.decodes ∧ (Introducer.read? (text pos style lineStart ending t).tape.rest).isSome := by
  rw [rest_text, hstop, Stop.length, Nat.add_zero]
  rcases Style.passage_stop_cases style lineStart t.rest with ⟨lineStart', hstops⟩ | ⟨hend, -⟩
  · rw [hstop] at hstops
    rcases Style.stop?_cases hstops with ⟨n, hclosed, -⟩ | ⟨-, hdecodes, hsome⟩
    · cases hclosed
    · exact ⟨hdecodes, hsome⟩
  · rw [hstop] at hend
    cases hend

end Reading

end ScriptLexer
