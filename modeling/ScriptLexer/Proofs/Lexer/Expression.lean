import ScriptLexer.Proofs.Lexer.Braces
import ScriptLexer.Proofs.Lexer.Heredocs

/-!
# Balanced expressions

A small language of expressions that nest in all the ways in which constructs do: sums, lists,
strings and percent literals with interpolations, braces in an interpolation, and heredocs whose
bodies have interpolations. Every expression of it is read cleanly: the script ends with nothing
open and nothing to report.

## The contract

Whether `%Q(` and `<<E` begin a literal depends on what stands in front of them, and where a name
ends depends on what stands behind. So an expression is read through where an operand is expected
(`Lexer.Awaits`), if nothing follows that could continue it (`Expression.Follows`). It is the same
contract whatever is open around the expression, and how many braces are counted there: the stack
comes back as it was, but for the lookback, and every form of expression restores what its parts
need. Nested heredocs may have the same identifier, since one that is suspended does not look for
its closing line.

## Main definitions

* `Expression`, `Expression.text` — balanced expressions, and how they are written
* `Lexer.ReadsThrough` — a text is read through wherever an operand may begin

## Main results

* `Expression.readsThrough_text` — every expression is read through
* `Expression.run_text` — a script that is an expression is read to its end, with nothing open and
  nothing to report
-/

namespace ScriptLexer

/-- A balanced expression. -/
inductive Expression where
  /-- `a` -/
  | name
  /-- `1` -/
  | integer
  /-- `@iv` -/
  | instanceVariable
  /-- `"s\t"` -/
  | decodedString
  /-- `'q'` -/
  | verbatimString
  /-- `"#$g"` -/
  | variableString
  /-- One or more expressions with ` + ` between them. -/
  | sum (first : Expression) (more : List Expression)
  /-- `"x#{e}y"` -/
  | string (e : Expression)
  /-- `%Q(#{e})` -/
  | percent (e : Expression)
  /-- `[ e ]` -/
  | list (e : Expression)
  /-- `"#{ { k: e } }"` -/
  | braces (e : Expression)
  /-- `<<E`, the line `v #{e}`, and the line `E`. -/
  | heredoc (e : Expression)

namespace Expression

mutual

/-- How an expression is written. -/
def text : Expression → List Byte
  | name => Byte.ofString "a"
  | integer => Byte.ofString "1"
  | instanceVariable => Byte.ofString "@iv"
  | decodedString => Byte.ofString "\"s\\t\""
  | verbatimString => Byte.ofString "'q'"
  | variableString => Byte.ofString "\"#$g\""
  | sum first more => first.text ++ textMore more
  | string e => Byte.ofString "\"x#\x7b" ++ e.text ++ Byte.ofString "\x7dy\""
  | percent e => Byte.ofString "%Q(#\x7b" ++ e.text ++ Byte.ofString "\x7d)"
  | list e => Byte.ofString "[ " ++ e.text ++ Byte.ofString " ]"
  | braces e => Byte.ofString "\"#\x7b \x7b k: " ++ e.text ++ Byte.ofString " \x7d \x7d\""
  | heredoc e => Byte.ofString "<<E\nv #\x7b" ++ e.text ++ Byte.ofString "\x7d\nE\n"

/-- How the terms of a sum behind its first are written. -/
def textMore : List Expression → List Byte
  | [] => []
  | e :: more => Byte.ofString " + " ++ e.text ++ textMore more

end

example : (heredoc (sum name [list integer])).text
    = Byte.ofString "<<E\nv #\x7ba + [ 1 ]\x7d\nE\n" := by
  decide

end Expression

/-! ### Where expressions stand -/

/-- Whether statements in a region may run over several lines. -/
def Region.IsBlock : Region → Prop
  | statements | interpolation _ => True
  | quoted _ | heredocLine _ | heredocBody _ => False

theorem Region.IsBlock.readsStatement {region : Region} {b : Byte} (h : region.IsBlock)
    (hb : b ≠ Byte.ofChar '\x7d') : region.ReadsStatement b := by
  cases region with
  | statements => trivial
  | interpolation braces => exact fun hclose => hb hclose.2
  | quoted _ | heredocLine _ | heredocBody _ => cases h

theorem Region.IsBlock.holdsStatements {region : Region} (h : region.IsBlock) :
    region.holdsStatements := by
  cases region with
  | statements | interpolation _ => rfl
  | quoted _ | heredocLine _ | heredocBody _ => cases h

theorem Region.IsBlock.countBrace {region : Region} (h : region.IsBlock) (kind : Kind) :
    (Frame.countBrace kind region).IsBlock := by
  cases region with
  | interpolation braces =>
    rw [Frame.countBrace.eq_def]
    simp only
    split <;> trivial
  | statements => trivial
  | quoted _ | heredocLine _ | heredocBody _ => cases h

theorem Frame.record_of_isBrace {kind : Kind} (h : kind.isBrace = false) (region : Region)
    (lookback : Lookback) : record kind ⟨region, lookback⟩ = ⟨region, lookback.after kind⟩ := by
  rw [record, countBrace_of_isBrace h]

/-- An introducer begins with a hash sign. -/
theorem Introducer.read?_of_ne {b : Byte} (h : b ≠ Byte.ofChar '#') (rest : List Byte) :
    read? (b :: rest) = none := by
  rw [read?_eq_none_iff]
  cases rest <;> simp [Reference.introduces, h]

/-- What may follow an expression: a blank, the brace that closes an interpolation, or the end. -/
inductive Expression.Follows : List Byte → Prop
  | blank (rest : List Byte) : Follows (Byte.ofChar ' ' :: rest)
  | brace (rest : List Byte) : Follows (Byte.ofChar '\x7d' :: rest)
  | nil : Follows []

open Expression (Follows)

namespace Lexer

/-- An operand is expected next, which touches nothing. -/
def Awaits (source bytes : List Byte) (region : Region) (below : List Frame) (l : Lexer) : Prop :=
  ∃ lookback : Lookback, lookback.abuts = false ∧ lookback.expectsOperand
    ∧ l.Faces source bytes ⟨⟨region, lookback⟩, below⟩ none

/-- From `l` on, calls come to where these bytes are ahead, with nothing to report. -/
def ComesTo (source bytes : List Byte) (region : Region) (below : List Frame) (l : Lexer) : Prop :=
  ∃ m lookback, l.Leads m ∧ m.Faces source bytes ⟨⟨region, lookback⟩, below⟩ none

/-- A text is read through wherever an operand may begin, whatever is open there. -/
def ReadsThrough (text : List Byte) : Prop :=
  ∀ ⦃source behind region below l⦄, Region.IsBlock region → Follows behind →
    Awaits source (text ++ behind) region below l → ComesTo source behind region below l

/-- A text is read through between the braces of an interpolation. -/
def ReadsInside (text : List Byte) : Prop :=
  ∀ ⦃source behind below l⦄,
    Awaits source (text ++ Byte.ofChar '\x7d' :: behind) (.interpolation 0) below l →
    ComesTo source (Byte.ofChar '\x7d' :: behind) (.interpolation 0) below l

theorem ReadsThrough.readsInside {text : List Byte} (h : ReadsThrough text) : ReadsInside text :=
  fun _ _ _ _ hl => h trivial (.brace _) hl

variable {source bytes behind text : List Byte} {region : Region} {lookback : Lookback}
  {below : List Frame} {l m : Lexer} {kind : Kind} {literal : Option (List Byte)} {b : Byte}
  {n : Nat}

theorem Leads.comesTo (h : l.Leads m) (hm : m.ComesTo source bytes region below) :
    l.ComesTo source bytes region below := by
  obtain ⟨k, lookback, hmk, hk⟩ := hm
  exact ⟨k, lookback, h.trans hmk, hk⟩

/-- What a token that is no brace leads to. -/
theorem Shows.comesTo (hshows : l.Shows kind literal m)
    (hm : m.Faces source bytes (Stack.commit .stay kind ⟨⟨region, lookback⟩, below⟩) none)
    (hend : kind ≠ .endOfInput) (hbrace : kind.isBrace = false) :
    l.ComesTo source bytes region below := by
  rw [Stack.commit, Frame.record_of_isBrace hbrace] at hm
  exact ⟨m, _, hshows.leads hend, hm⟩

namespace Faces

theorem blank (h : l.Faces source (Byte.ofChar ' ' :: bytes) ⟨⟨region, lookback⟩, below⟩ none)
    (hregion : region.IsBlock) : l.ComesTo source bytes region below := by
  obtain ⟨m, hm, hnext⟩ := h.skip (by decide) hregion.holdsStatements
  exact ⟨m, _, leads_of_next_eq hnext, hm⟩

/-- An operator and a blank: an operand is expected behind them. -/
theorem operator {p : Punctuator}
    (h : l.Faces source (b :: Byte.ofChar ' ' :: bytes) ⟨⟨region, lookback⟩, below⟩ none)
    (hregion : region.IsBlock) (hb : b.isSolid) (hclose : b ≠ Byte.ofChar '\x7d')
    (hread : ∀ lineStart, Lexeme.read lookback lineStart b (Byte.ofChar ' ' :: bytes)
      = Lexeme.punctuation b (Byte.ofChar ' ' :: bytes))
    (hp : Punctuator.read? (b :: Byte.ofChar ' ' :: bytes) = some p) (hlength : p.bytes.length = 1)
    (hvalue : (Kind.punctuator p).endsValue = false) :
    ∃ m, l.Leads m
      ∧ m.Awaits source bytes (Frame.countBrace (.punctuator p) region) below := by
  have hread : ∀ lineStart, Lexeme.read lookback lineStart b (Byte.ofChar ' ' :: bytes)
      = .bare (.punctuator p) 1 := by
    intro lineStart
    rw [hread, Lexeme.punctuation, hp, ← hlength]
  have hend : Kind.punctuator p ≠ .endOfInput := by
    intro hend
    cases hend
  obtain ⟨k, hshows, hk⟩ := h.bare hb (hregion.readsStatement hclose) hread
  obtain ⟨m, hm, hnext⟩ := hk.skip (by decide) (hregion.countBrace _).holdsStatements
  refine ⟨m, (hshows.leads hend).trans (leads_of_next_eq hnext), _, ?_, ?_, hm⟩
  · simp [Stack.commit, Frame.record, Lookback.afterGap]
  · simp [Stack.commit, Frame.record, Lookback.afterGap, Lookback.after, Lookback.expectsOperand,
      hvalue]

/-- **Statements between the braces of an interpolation are read through,** and the text goes on. -/
theorem insertion (hregion : region.Interruptible) (htext : ReadsInside text)
    (h : l.Faces source (Byte.ofChar '#' :: Byte.ofChar '\x7b' ::
      (text ++ Byte.ofChar '\x7d' :: behind)) ⟨⟨region, lookback⟩, below⟩ none) :
    l.ComesTo source behind region below := by
  obtain ⟨m, hbegin, hm⟩ := h.insertBegin hregion rfl
  obtain ⟨k, lookback', hmk, hk⟩ := htext ⟨.fresh, rfl, rfl, hm⟩
  obtain ⟨l', hend, hl'⟩ := hk.insertEnd rfl
  have hl' : l'.Faces source behind
      ⟨((⟨region, lookback⟩ : Frame).record .insertBegin).record .insertEnd, below⟩ none := hl'
  rw [Frame.record_of_isBrace rfl, Frame.record_of_isBrace rfl] at hl'
  exact ⟨l', _, (hbegin.leads nofun).trans (hmk.trans (hend.leads nofun)), hl'⟩

end Faces

/-! ### Leaves -/

/-- A name, a number or a variable. -/
theorem readsThrough_spelled (kind : Kind) (b : Byte) (rest : List Byte) (hb : b.isSolid)
    (hclose : b ≠ Byte.ofChar '\x7d')
    (hread : ∀ {lookback lineStart behind}, Follows behind →
      Lexeme.read lookback lineStart b (rest ++ behind) = .spelled kind (rest.length + 1))
    (hend : kind ≠ .endOfInput) (hbrace : kind.isBrace = false) : ReadsThrough (b :: rest) := by
  rintro source behind region below l hregion hfollows ⟨lookback, -, -, h⟩
  obtain ⟨m, hshows, hm⟩ := h.spelled hb (hregion.readsStatement hclose) (fun _ => hread hfollows)
  have hm : m.Faces source (((b :: rest) ++ behind).drop (b :: rest).length) _ none := hm
  rw [List.drop_left] at hm
  exact hshows.comesTo hm hend hbrace

/-- Bytes that stand for themselves in a decoded text up to `close`. -/
def PlainUpTo (close : Byte) (bytes : List Byte) : Prop :=
  ∀ b ∈ bytes, b ≠ close ∧ b ≠ Byte.ofChar '#' ∧ b ≠ Byte.ofChar '\\'

instance (close : Byte) (bytes : List Byte) : Decidable (PlainUpTo close bytes) :=
  List.decidableBAll _ bytes

theorem readsThrough_decodedString : ReadsThrough (Byte.ofString "\"s\\t\"") := by
  rintro source behind region below l hregion - ⟨lookback, -, -, h⟩
  have hp : (Style.decoded (Byte.ofChar '"')).passage false (Byte.ofString "s\\t\"" ++ behind)
      = ⟨Byte.ofString "s\t", 3, .closed 1, none⟩ := by
    have htail : (Style.decoded (Byte.ofChar '"')).passage false (Byte.ofString "\\t\"" ++ behind)
        = ⟨Byte.ofString "\t", 2, .closed 1, none⟩ := by
      refine (Style.passage_cons rfl).trans ?_
      show ((Style.decoded _).passage _ (Byte.ofChar '"' :: behind)).behind _ = _
      rw [Style.passage_of_stop rfl]
      rfl
    have hplain : PlainUpTo (Byte.ofChar '"') (Byte.ofString "s") := by decide
    refine (Style.passage_decoded_bytes hplain _ (Byte.ofString "\\t\"" ++ behind)).trans ?_
    rw [htail]
    rfl
  obtain ⟨m, hshows, hm⟩ :=
    h.quoted (by decide) (hregion.readsStatement (by decide)) (fun _ => rfl) hp
  exact hshows.comesTo hm nofun rfl

theorem readsThrough_verbatimString : ReadsThrough (Byte.ofString "'q'") := by
  rintro source behind region below l hregion - ⟨lookback, -, -, h⟩
  have hp : (Style.verbatim (Byte.ofChar '\'')).passage false (Byte.ofString "q'" ++ behind)
      = ⟨Byte.ofString "q", 1, .closed 1, none⟩ := by
    refine (Style.passage_cons rfl).trans ?_
    show ((Style.verbatim _).passage _ (Byte.ofChar '\'' :: behind)).behind _ = _
    rw [Style.passage_of_stop rfl]
    rfl
  obtain ⟨m, hshows, hm⟩ :=
    h.verbatim (by decide) (hregion.readsStatement (by decide)) (fun _ => rfl) hp
  exact hshows.comesTo hm nofun rfl

/-! ### Interpolated strings -/

theorem Faces.closeString {close : Byte} {f : Frame}
    (h : l.Faces source (text ++ close :: behind) ⟨⟨.quoted close, lookback⟩, f :: below⟩ none)
    (hclose : close ≠ Byte.ofChar '#') (htext : PlainUpTo close text) :
    ∃ l', l.Shows .string (some text) l'
      ∧ l'.Faces source behind ⟨f.record .string, below⟩ none := by
  have hintroducer : Introducer.read? (text ++ close :: behind) = none := by
    cases text with
    | nil => exact Introducer.read?_of_ne hclose behind
    | cons b text => exact Introducer.read?_of_ne (htext b List.mem_cons_self).2.1 _
  have hp : (Style.decoded close).passage false (text ++ close :: behind)
      = (Passage.empty (.closed 1)).behindBytes text := by
    have hstop : (Style.decoded close).stop? false (close :: behind) = some (.closed 1) := by
      simp [Style.stop?, Style.close?]
    rw [Style.passage_decoded_bytes htext, Style.passage_of_stop hstop]
  obtain ⟨l', hshows, hl'⟩ := h.resumed (by simp) rfl hintroducer hp
  refine ⟨l', ?_, ?_⟩
  · simpa [Passage.behindBytes, Passage.empty, Ending.quoted] using hshows
  · simpa [Passage.behindBytes, Passage.empty, Ending.quoted, Stop.length, Stack.commit] using hl'

/-- **A string with an interpolation is read through,** if what is interpolated is. -/
theorem readsThrough_interpolated (b : Byte) (opener pre post : List Byte) {close : Byte}
    (hb : b.isSolid) (hbrace : b ≠ Byte.ofChar '\x7d')
    (hread : ∀ {lookback lineStart behind}, Lookback.expectsOperand lookback →
      Lexeme.read lookback lineStart b (opener ++ behind) = .quoted false close (opener.length + 1))
    (hclose : close ≠ Byte.ofChar '#') (hpre : PlainUpTo close pre) (hpost : PlainUpTo close post)
    (htext : ReadsInside text) :
    ReadsThrough (b :: opener ++ (pre ++ Byte.ofChar '#' :: Byte.ofChar '\x7b' ::
      (text ++ Byte.ofChar '\x7d' :: (post ++ [close])))) := by
  rintro source behind region below l hregion - ⟨lookback, -, hoperand, h⟩
  let inner := Byte.ofChar '#' :: Byte.ofChar '\x7b' ::
    (text ++ Byte.ofChar '\x7d' :: (post ++ close :: behind))
  have h : l.Faces source (b :: (opener ++ (pre ++ inner))) ⟨⟨region, lookback⟩, below⟩ none := by
    simpa [inner] using h
  have hp : (Style.decoded close).passage false ((b :: (opener ++ (pre ++ inner))).drop
      (opener.length + 1)) = (Passage.empty .interpolation).behindBytes pre := by
    have hstop : (Style.decoded close).stop? false inner = some .interpolation := by
      rw [Style.stop?_decoded, if_neg (by simpa [inner] using Ne.symm hclose)]
      rfl
    rw [List.drop_succ_cons, List.drop_left, Style.passage_decoded_bytes hpre,
      Style.passage_of_stop hstop]
  obtain ⟨m, hpart, hm⟩ :=
    h.quoted hb (hregion.readsStatement hbrace) (fun _ => hread hoperand) hp
  have hm : m.Faces source inner
      ⟨.enter (.quoted close), Frame.record .stringPart ⟨region, lookback⟩ :: below⟩ none := by
    have hdrop : (b :: (opener ++ (pre ++ inner))).drop (opener.length + 1 + (pre.length + 0 + 0))
        = inner := by
      rw [← List.drop_drop, List.drop_succ_cons, List.drop_left, Nat.add_zero, List.drop_left]
    rw [← hdrop]
    exact hm
  obtain ⟨k, lookback', hmk, hk⟩ :=
    hm.insertion (show (Region.quoted close).Interruptible from trivial) htext
  obtain ⟨l', hend, hl'⟩ := hk.closeString hclose hpost
  rw [Frame.record_of_isBrace rfl, Frame.record_of_isBrace rfl] at hl'
  exact ⟨l', _, (hpart.leads nofun).trans (hmk.trans (hend.leads nofun)), hl'⟩

/-- A string with a variable in its text. -/
theorem readsThrough_variableString : ReadsThrough (Byte.ofString "\"#$g\"") := by
  rintro source behind region below l hregion - ⟨lookback, -, -, h⟩
  have hp : (Style.decoded (Byte.ofChar '"')).passage false (Byte.ofString "#$g\"" ++ behind)
      = .empty .interpolation := Style.passage_of_stop rfl
  obtain ⟨m, hpart, hm⟩ :=
    h.quoted (by decide) (hregion.readsStatement (by decide)) (fun _ => rfl) hp
  obtain ⟨k, hvariable, hk⟩ := hm.insertedVariable trivial rfl
  have hk : k.Faces source ([] ++ Byte.ofChar '"' :: behind) _ none := hk
  obtain ⟨l', hend, hl'⟩ := hk.closeString (by decide) (List.forall_mem_nil _)
  rw [Frame.record_of_isBrace rfl, Frame.record_of_isBrace rfl] at hl'
  exact ⟨l', _, (hpart.leads nofun).trans ((hvariable.leads nofun).trans (hend.leads nofun)), hl'⟩

/-! ### Sums and lists -/

/-- Two terms and the operator between them. -/
theorem ReadsThrough.plus {left right : List Byte} (hleft : ReadsThrough left)
    (hright : ReadsThrough right) : ReadsThrough (left ++ Byte.ofString " + " ++ right) := by
  intro source behind region below l hregion hfollows h
  rw [List.append_assoc, List.append_assoc] at h
  obtain ⟨m, lookback, hlm, hm⟩ := hleft hregion (.blank _) h
  obtain ⟨k, lookback', hmk, hk⟩ := hm.blank hregion
  obtain ⟨j, hkj, hj⟩ :=
    hk.operator (p := .plus) hregion (by decide) (by decide) (fun _ => rfl) rfl rfl rfl
  rw [Frame.countBrace_of_isBrace rfl] at hj
  exact hlm.comesTo (hmk.comesTo (hkj.comesTo (hright hregion hfollows hj)))

/-- A list with one element. -/
theorem ReadsThrough.list (htext : ReadsThrough text) :
    ReadsThrough (Byte.ofString "[ " ++ text ++ Byte.ofString " ]") := by
  rintro source behind region below l hregion hfollows ⟨lookback, -, -, h⟩
  rw [List.append_assoc, List.append_assoc] at h
  obtain ⟨m, hlm, hm⟩ :=
    h.operator (p := .leftBracket) hregion (by decide) (by decide) (fun _ => rfl) rfl rfl rfl
  rw [Frame.countBrace_of_isBrace rfl] at hm
  obtain ⟨k, lookback', hmk, hk⟩ := htext hregion (.blank _) hm
  obtain ⟨j, lookback'', hkj, hj⟩ := hk.blank hregion
  obtain ⟨l', hclose, hl'⟩ :=
    hj.bare (by decide) (hregion.readsStatement (by decide)) (fun _ => rfl)
  exact hlm.comesTo (hmk.comesTo (hkj.comesTo (hclose.comesTo hl' nofun rfl)))

/-- Braces in an interpolation, with a name and a colon in front. -/
theorem ReadsThrough.inBraces (htext : ReadsThrough text) :
    ReadsInside (Byte.ofString " \x7b k: " ++ text ++ Byte.ofString " \x7d ") := by
  rintro source behind below l ⟨lookback, -, -, h⟩
  rw [List.append_assoc, List.append_assoc] at h
  -- The left brace is counted, so that the right brace behind the text does not end the
  -- interpolation.
  have hinner : (Region.interpolation 1).IsBlock := trivial
  let back := Byte.ofString " \x7d " ++ Byte.ofChar '\x7d' :: behind
  obtain ⟨l₁, lookback₁, hl₁, h₁⟩ := h.blank trivial
  obtain ⟨l₂, hl₂, lookback₂, -, -, h₂⟩ := h₁.operator (p := .leftBrace) trivial (by decide)
    (by decide) (fun _ => rfl) rfl rfl rfl
  have h₂ : l₂.Faces source (Byte.ofString "k: " ++ (text ++ back))
      ⟨⟨.interpolation 1, lookback₂⟩, below⟩ none := h₂
  obtain ⟨l₃, hname, h₃⟩ := h₂.spelled (by decide) (hinner.readsStatement (by decide))
    (fun _ => rfl)
  have h₃ : l₃.Faces source (Byte.ofString ": " ++ (text ++ back))
      ⟨⟨.interpolation 1, lookback₂.after .localVariable⟩, below⟩ none := h₃
  obtain ⟨l₄, hl₄, h₄⟩ := h₃.operator (p := .colon) hinner (by decide) (by decide)
    (fun _ => rfl) rfl rfl rfl
  have h₄ : l₄.Awaits source (text ++ back) (.interpolation 1) below := h₄
  obtain ⟨l₅, lookback₅, hl₅, h₅⟩ := htext hinner (.blank _) h₄
  obtain ⟨l₆, lookback₆, hl₆, h₆⟩ := h₅.blank hinner
  have h₆ : l₆.Faces source (Byte.ofString "\x7d " ++ Byte.ofChar '\x7d' :: behind)
      ⟨⟨.interpolation 1, lookback₆⟩, below⟩ none := h₆
  obtain ⟨l₇, hright, h₇⟩ := h₆.bare (by decide) (fun hclose => absurd hclose.1 Nat.one_ne_zero)
    (fun _ => rfl)
  have h₇ : l₇.Faces source (Byte.ofChar ' ' :: Byte.ofChar '\x7d' :: behind)
      ⟨⟨.interpolation 0, lookback₆.after (.punctuator .rightBrace)⟩, below⟩ none := h₇
  have hend : l₇.ComesTo source (Byte.ofChar '\x7d' :: behind) (.interpolation 0) below :=
    h₇.blank trivial
  exact hl₁.comesTo (hl₂.comesTo ((hname.leads nofun).comesTo (hl₄.comesTo (hl₅.comesTo
    (hl₆.comesTo ((hright.leads nofun).comesTo hend))))))

/-! ### Heredocs -/

/-- A line of a body up to its interpolation. -/
theorem passage_bodyLine (inner : List Byte) :
    (Style.decodedLines ⟨Byte.ofString "E", false⟩).passage true
        (Byte.ofString "v #\x7b" ++ inner)
      = (Passage.empty .interpolation).behindBytes (Byte.ofString "v ") := by
  refine (Style.passage_cons rfl).trans ?_
  show ((Style.decodedLines _).passage false (Byte.ofString " #\x7b" ++ inner)).behind _ = _
  have hblank : (Style.decodedLines ⟨Byte.ofString "E", false⟩).passage false
      (Byte.ofString " #\x7b" ++ inner) = _ := Style.passage_cons rfl
  rw [hblank]
  show (((Style.decodedLines _).passage false (Byte.ofString "#\x7b" ++ inner)).behind _).behind _
    = _
  rw [Style.passage_of_stop rfl]
  rfl

/-- The rest of a line and the closing line behind it. -/
theorem passage_closingLine (lineStart : Bool) (behind : List Byte) :
    (Style.decodedLines ⟨Byte.ofString "E", false⟩).passage lineStart
        (Byte.ofString "\nE\n" ++ behind)
      = (Passage.empty (.closed 1)).behindBytes [Byte.newline] := by
  have hopen : (Style.decodedLines ⟨Byte.ofString "E", false⟩).stop? lineStart
      (Byte.ofString "\nE\n" ++ behind) = none := by
    cases lineStart <;> rfl
  refine (Style.passage_cons hopen).trans ?_
  show ((Style.decodedLines _).passage true (Byte.ofString "E\n" ++ behind)).behind _ = _
  rw [Style.passage_of_stop rfl]
  rfl

/-- A heredoc with an interpolation in its body. -/
theorem ReadsThrough.heredoc (htext : ReadsThrough text) :
    ReadsThrough (Byte.ofString "<<E\nv #\x7b" ++ text ++ Byte.ofString "\x7d\nE\n") := by
  rintro source behind region below l hregion - ⟨lookback, habuts, -, h⟩
  rw [List.append_assoc, List.append_assoc] at h
  let closing := Byte.ofString "\nE\n" ++ behind
  let inner := text ++ Byte.ofChar '\x7d' :: closing
  have h : l.Faces source (Byte.ofChar '<' :: Byte.ofChar '<' ::
      (Byte.ofString "E" ++ Byte.newline :: (Byte.ofString "v #\x7b" ++ inner)))
      ⟨⟨region, lookback⟩, below⟩ none := h
  obtain ⟨l₁, heredoc, hbegin, hwaits, h₁⟩ := h.opener (hregion.readsStatement (by decide)) habuts
    (HeredocStart.read_bare (by decide) (List.all_eq_true.mp rfl)) rfl
  -- The line behind the opener is empty, so its frame is never the one that reads.
  obtain ⟨l₂, hline, h₂, hstart⟩ := h₁.lineEnd rfl
  obtain ⟨l₃, hpart, h₃⟩ :=
    h₂.body (List.cons_ne_nil _ _) rfl hwaits (.inr rfl) hstart (passage_bodyLine inner)
  have hinterruptible : (Region.heredocBody heredoc).Interruptible := by
    show ¬ heredoc.verbatim
    rw [hwaits.isVerbatim]
    exact Bool.false_ne_true
  obtain ⟨l₄, lookback₄, hl₄, h₄⟩ := Faces.insertion hinterruptible htext.readsInside h₃
  obtain ⟨l₅, hend, h₅⟩ :=
    h₄.body (List.cons_ne_nil _ _) rfl hwaits (.inr rfl) rfl (passage_closingLine _ behind)
  have h₅ : l₅.Faces source (Byte.newline :: behind)
      ⟨((⟨region, lookback⟩ : Frame).record .heredocBegin).record .heredocEnd, below⟩ none := h₅
  rw [Frame.record_of_isBrace rfl, Frame.record_of_isBrace rfl] at h₅
  -- The line feed behind the closing line is a token of the statements around the heredoc.
  obtain ⟨l₆, hnewline, h₆⟩ := h₅.bare (by decide) (hregion.readsStatement (by decide))
    (fun _ => rfl)
  exact (hbegin.leads nofun).comesTo ((hline.leads nofun).comesTo ((hpart.leads nofun).comesTo
    (hl₄.comesTo ((hend.leads nofun).comesTo (hnewline.comesTo h₆ nofun rfl)))))

end Lexer

/-! ### Expressions -/

namespace Expression

open Lexer (ReadsThrough)

theorem readsThrough_name : ReadsThrough name.text :=
  Lexer.readsThrough_spelled .localVariable (Byte.ofChar 'a') [] (by decide) (by decide)
    (fun h => by cases h <;> rfl) nofun rfl

theorem readsThrough_integer : ReadsThrough integer.text :=
  Lexer.readsThrough_spelled .decimalInteger (Byte.ofChar '1') [] (by decide) (by decide)
    (fun h => by cases h <;> rfl) nofun rfl

theorem readsThrough_instanceVariable : ReadsThrough instanceVariable.text :=
  Lexer.readsThrough_spelled .instanceVariable (Byte.ofChar '@') (Byte.ofString "iv") (by decide)
    (by decide) (fun h => by cases h <;> rfl) nofun rfl

theorem readsThrough_string {e : Expression} (he : ReadsThrough e.text) :
    ReadsThrough (string e).text := by
  have h := Lexer.readsThrough_interpolated (Byte.ofChar '"') [] (Byte.ofString "x")
    (Byte.ofString "y") (by decide) (by decide) (fun _ => rfl)
    (by decide) (by decide) (by decide) he.readsInside
  rw [text, List.append_assoc]
  exact h

theorem readsThrough_percent {e : Expression} (he : ReadsThrough e.text) :
    ReadsThrough (percent e).text := by
  have hread : ∀ {lookback : Lookback} {lineStart behind}, lookback.expectsOperand →
      Lexeme.read lookback lineStart (Byte.ofChar '%') (Byte.ofString "Q(" ++ behind)
        = .quoted false (Byte.ofChar ')') 3 := by
    intro lookback lineStart behind hoperand
    show Lexeme.percent _ _ = _
    rw [Lexeme.percent, hoperand]
    rfl
  have h := Lexer.readsThrough_interpolated (Byte.ofChar '%') (Byte.ofString "Q(") [] []
    (by decide) (by decide) hread
    (by decide) (by decide) (by decide) he.readsInside
  rw [text, List.append_assoc]
  exact h

theorem readsThrough_braces {e : Expression} (he : ReadsThrough e.text) :
    ReadsThrough (braces e).text := by
  have h := Lexer.readsThrough_interpolated (Byte.ofChar '"') [] [] []
    (by decide) (by decide) (fun _ => rfl)
    (by decide) (by decide) (by decide) he.inBraces
  rw [List.append_assoc, List.append_assoc] at h
  rw [text, List.append_assoc]
  exact h

mutual

/-- **Every expression is read through.** -/
theorem readsThrough_text : (e : Expression) → ReadsThrough e.text
  | name => readsThrough_name
  | integer => readsThrough_integer
  | instanceVariable => readsThrough_instanceVariable
  | decodedString => Lexer.readsThrough_decodedString
  | verbatimString => Lexer.readsThrough_verbatimString
  | variableString => Lexer.readsThrough_variableString
  | sum first more => readsThrough_textMore first.readsThrough_text more
  | string e => readsThrough_string e.readsThrough_text
  | percent e => readsThrough_percent e.readsThrough_text
  | list e => e.readsThrough_text.list
  | braces e => readsThrough_braces e.readsThrough_text
  | heredoc e => e.readsThrough_text.heredoc

/-- The terms of a sum behind what is read through already. -/
theorem readsThrough_textMore {bytes : List Byte} (h : ReadsThrough bytes) :
    (more : List Expression) → ReadsThrough (bytes ++ textMore more)
  | [] => by
    rw [textMore, List.append_nil]
    exact h
  | e :: more => by
    have hmore := readsThrough_textMore (h.plus e.readsThrough_text) more
    simpa [textMore] using hmore

end

/-- **A script that is an expression is read to its end,** with nothing open and nothing to
report. -/
theorem run_text (e : Expression) :
    ∃ init eoi l, (Lexer.ofBytes e.text).run = .ok (init ++ [eoi], l)
      ∧ eoi = .bare e.text.length .endOfInput ∧ l.depth = 1 ∧ l.diagnostic = none := by
  have hbegin : (Lexer.ofBytes e.text).Awaits e.text (e.text ++ []) .statements [] := by
    refine ⟨.fresh, rfl, rfl, ?_⟩
    rw [List.append_nil]
    exact Lexer.faces_ofBytes e.text
  have hblock : Region.IsBlock .statements := trivial
  obtain ⟨l, lookback, hleads, hl⟩ := e.readsThrough_text hblock .nil hbegin
  obtain ⟨init, hrun⟩ := (hleads _ _ (hl.ends rfl)).exists_run
  exact ⟨init, _, l, hrun, rfl, hl.depth, hl.diagnostic⟩

end Expression

end ScriptLexer
