import ScriptLexer.Proofs.Lexer.Faces

/-!
# What lies ahead of a lexer

What a lexer answers depends on less than a lexer has. It depends on the bytes that are unread, on
whether a line begins with them, and on the open constructs; of a heredoc that is open, it depends
on how its body is read, and not on where its identifier lies. An `Outlook` has these and no more.
It has no offsets, no buffer, and nothing that was reported, so two lexers with one outlook answer
alike for ever, wherever they are and whatever they have read.

`Outlook.next` says what a call does to an outlook, and with which `Outcome`. It is a function of
bytes and answers always. What is said about two runs can therefore be said about outlooks, and be
proved there, where nothing is written and nothing can fail.

## Main definitions

* `Outlook` — what lies ahead of a lexer
* `Outcome` — what a call finds there, counted from where its token begins
* `Outlook.next` — what a call does
-/

namespace ScriptLexer

/-! ### Constructs without offsets -/

/-- What a construct is, as far as it decides how bytes are read. -/
inductive Scene where
  | statements
  | quoted (close : Byte)
  | interpolation (braces : Nat)
  /-- The statements behind a heredoc's opener, whose body is read in a style. -/
  | heredocLine (style : Style)
  | heredocBody (style : Style)
  deriving DecidableEq, Repr

/-- An open construct, as far as it decides how bytes are read. -/
structure Layer where
  scene : Scene
  lookback : Lookback
  deriving DecidableEq, Repr

/-- What a token does to the constructs, as far as it decides how bytes are read. -/
inductive Turn where
  | stay
  | push (scene : Scene)
  | pop
  | swap (scene : Scene)
  deriving DecidableEq, Repr

/-- How the body of a heredoc of `source` is read. -/
def Heredoc.style (source : List Byte) (heredoc : Heredoc) : Style :=
  TerminatorLine.style heredoc.verbatim
    ⟨(heredoc.identifier.slice? source).getD [], heredoc.indented⟩

/-- How the body of a heredoc is read whose opener begins `bytes`. -/
def HeredocOpener.style (bytes : List Byte) (opener : HeredocOpener) : Style :=
  TerminatorLine.style opener.verbatim
    ⟨(bytes.drop (2 + opener.offset)).take opener.size, opener.indented⟩

/-- What a region of `source` is. -/
def Region.scene (source : List Byte) : Region → Scene
  | statements => .statements
  | quoted close => .quoted close
  | interpolation braces => .interpolation braces
  | heredocLine heredoc => .heredocLine (heredoc.style source)
  | heredocBody heredoc => .heredocBody (heredoc.style source)

/-- What a frame of `source` is. -/
def Frame.layer (source : List Byte) (f : Frame) : Layer :=
  ⟨f.region.scene source, f.lookback⟩

/-- What is done to the constructs of `source`. -/
def Shift.turn (source : List Byte) : Shift → Turn
  | stay => .stay
  | push region => .push (region.scene source)
  | pop => .pop
  | swap region => .swap (region.scene source)

namespace Scene

/-- Whether the bytes of a construct are read as statements. -/
def holdsStatements : Scene → Bool
  | statements | interpolation _ | heredocLine _ => true
  | quoted _ | heredocBody _ => false

/-- Counts the braces that are open in an interpolation. -/
def countBrace (kind : Kind) : Scene → Scene
  | interpolation braces =>
    match kind with
    | .punctuator .leftBrace => interpolation (braces + 1)
    | .punctuator .rightBrace => interpolation (braces - 1)
    | _ => interpolation braces
  | scene => scene

end Scene

namespace Layer

/-- A construct that has just been opened. -/
def enter (scene : Scene) : Layer :=
  ⟨scene, .fresh⟩

/-- The construct after a token of a kind. -/
def record (kind : Kind) (layer : Layer) : Layer :=
  ⟨layer.scene.countBrace kind, layer.lookback.after kind⟩

end Layer

/-! ### Outcomes -/

/-- What a call finds ahead. Offsets are counted from where the token begins. -/
structure Outcome where
  kind : Kind
  /-- The number of bytes of the token. -/
  length : Nat
  /-- The bytes that its literal shows. -/
  literal : Option (List Byte)
  turn : Turn
  /-- What is wrong first. -/
  fault : Option Diagnostic
  deriving DecidableEq, Repr

namespace Outcome

/-- A segment of text behind an opener of a number of bytes. -/
def text (style : Style) (lineStart : Bool) (ending : Stop → Ending) (opener : Nat)
    (bytes : List Byte) : Outcome :=
  let p := style.passage lineStart (bytes.drop opener)
  ⟨(ending p.stop).kind, opener + (p.length + p.stop.length), some p.text,
    (ending p.stop).shift.turn [],
    (p.fault.map (·.shift opener)).or ((ending p.stop).fault.map (⟨0, ·⟩))⟩

/-- What a lexeme describes that begins `bytes`. -/
def ofLexeme (bytes : List Byte) : Lexeme → Outcome
  | .bare kind length => ⟨kind, length, none, .stay, none⟩
  | .spelled kind length => ⟨kind, length, some (bytes.take length), .stay, none⟩
  | .quoted true close opener => text (.verbatim close) false .verbatim opener bytes
  | .quoted false close opener => text (.decoded close) false (.quoted close false) opener bytes
  | .heredoc opener =>
    ⟨.heredocBegin, 2 + opener.length, some (bytes.take (2 + opener.length)),
      .push (.heredocLine (opener.style bytes)), none⟩
  | .malformed cause length shown =>
    ⟨.illegal, length, if shown then some (bytes.take length) else none, .stay, some ⟨0, cause⟩⟩

/-- The introducer that begins the bytes. -/
def introducer? (bytes : List Byte) : Option Outcome :=
  match Introducer.read? bytes with
  | none => none
  | some .statements => some ⟨.insertBegin, 2, none, .push (.interpolation 0), none⟩
  | some (.variableName kind length) =>
    some ⟨kind, 1 + length, some ((bytes.drop 1).take length), .stay, none⟩

end Outcome

/-- What begins with the byte `b` in a construct. -/
def Layer.read (layer : Layer) (lineStart : Bool) (b : Byte) (rest : List Byte) : Outcome :=
  let statement := Outcome.ofLexeme (b :: rest) (Lexeme.read layer.lookback lineStart b rest)
  match layer.scene with
  | .statements => statement
  | .quoted close =>
    (Outcome.introducer? (b :: rest)).getD
      (.text (.decoded close) false (.quoted close true) 0 (b :: rest))
  | .interpolation braces =>
    if braces = 0 ∧ b = Byte.ofChar '\x7d' then ⟨.insertEnd, 1, none, .pop, none⟩ else statement
  | .heredocLine style =>
    if b = Byte.newline then ⟨.newLine, 1, none, .swap (.heredocBody style), none⟩ else statement
  | .heredocBody style =>
    let segment := Outcome.text style lineStart .body 0 (b :: rest)
    if style.decodes then (Outcome.introducer? (b :: rest)).getD segment else segment

/-! ### Outlooks -/

/-- Whether a line begins behind bytes, in front of which one begins or does not. -/
def Line.startsAfter (lineStart : Bool) (bytes : List Byte) : Bool :=
  match bytes.getLast? with
  | none => lineStart
  | some b => b == Byte.newline

/-- What lies ahead. -/
structure Outlook where
  rest : List Byte
  /-- Whether a line begins with the bytes. -/
  lineStart : Bool
  top : Layer
  below : List Layer
  deriving DecidableEq, Repr

namespace Outlook

/-- The outlook behind `n` bytes. -/
def advanceBy (n : Nat) (o : Outlook) : Outlook :=
  { o with rest := o.rest.drop n, lineStart := Line.startsAfter o.lineStart (o.rest.take n) }

/-- The outlook with another lookback for the innermost construct. -/
def withLookback (l : Lookback) (o : Outlook) : Outlook :=
  { o with top := ⟨o.top.scene, l⟩ }

/-- The outlook behind a piece of layout. -/
def pass (g : Gap) (o : Outlook) : Outlook :=
  (o.advanceBy g.length).withLookback (o.top.lookback.afterGap g.separates)

/-- The outlook behind all layout ahead. -/
def skipLayout (o : Outlook) : Outlook :=
  match _h : Gap.read? o.lineStart o.rest with
  | none => o
  | some g => skipLayout (o.pass g)
termination_by o.rest.length
decreasing_by
  have hle := Gap.length_le_of_read? _h
  simp only [pass, withLookback, advanceBy, List.length_drop, Gap.length] at hle ⊢
  omega

/-- The outlook where an end marker, if one stands here, is the end. -/
def honourEndMarker (o : Outlook) : Outlook :=
  if o.lineStart && Line.isEndMarker o.rest then { o with rest := [] } else o

/-- The outlook where the next token begins. -/
def settle (o : Outlook) : Outlook :=
  if o.top.scene.holdsStatements then o.skipLayout.honourEndMarker else o

/-- The number of bytes in front of the next token. -/
def gap (o : Outlook) : Nat :=
  if o.top.scene.holdsStatements then o.rest.length - o.skipLayout.rest.length else 0

/-- The outlook after a token of a kind, behind its bytes. -/
def commit (turn : Turn) (kind : Kind) (o : Outlook) : Outlook :=
  match turn with
  | .stay => { o with top := o.top.record kind }
  | .push scene => { o with top := .enter scene, below := o.top.record kind :: o.below }
  | .pop =>
    match o.below with
    | [] => { o with top := o.top.record kind }
    | layer :: below => { o with top := layer.record kind, below := below }
  | .swap scene => { o with top := (Layer.enter scene).record kind }

/-- What is missing at the end of the script, if a construct is open there. -/
def missing (o : Outlook) : Malformation :=
  match o.top.scene with
  | .quoted _ => .unterminatedString
  | .heredocBody _ => .unterminatedHeredoc
  | _ => .unclosedContext o.below.length

/-- What is found at the end of the script. -/
def finish (o : Outlook) : Outcome :=
  ⟨.endOfInput, 0, none, .stay, if o.below = [] then none else some ⟨0, o.missing⟩⟩

/-- What begins here, and the outlook behind it. -/
def step (o : Outlook) : Outcome × Outlook :=
  match o.rest with
  | [] => (o.finish, o)
  | b :: rest =>
    let r := o.top.read o.lineStart b rest
    (r, (o.advanceBy r.length).commit r.turn r.kind)

/-- What the next call finds, and the outlook behind it. -/
def next (o : Outlook) : Outcome × Outlook :=
  o.settle.step

/-! ### How an outlook unfolds -/

variable {o : Outlook}

theorem skipLayout_of_none (h : Gap.read? o.lineStart o.rest = none) : o.skipLayout = o := by
  rw [skipLayout]
  split
  · rfl
  · rename_i hsome
    rw [h] at hsome
    cases hsome

theorem skipLayout_of_some {g : Gap} (h : Gap.read? o.lineStart o.rest = some g) :
    o.skipLayout = (o.pass g).skipLayout := by
  rw [skipLayout]
  split
  · rename_i hnone
    rw [h] at hnone
    cases hnone
  · rename_i g' hsome
    rw [h] at hsome
    cases hsome
    rfl

theorem step_of_cons {b : Byte} {rest : List Byte} (h : o.rest = b :: rest) :
    o.step = (o.top.read o.lineStart b rest,
      (o.advanceBy (o.top.read o.lineStart b rest).length).commit
        (o.top.read o.lineStart b rest).turn (o.top.read o.lineStart b rest).kind) := by
  rw [step, h]

theorem step_of_nil (h : o.rest = []) : o.step = (o.finish, o) := by
  rw [step, h]

end Outlook

/-- What lies ahead of a lexer of `source`. -/
def Lexer.outlook (source : List Byte) (l : Lexer) : Outlook :=
  ⟨l.tape.rest, l.tape.isLineStart l.tape.pos, l.stack.top.layer source,
    l.stack.below.map (·.layer source)⟩

end ScriptLexer
