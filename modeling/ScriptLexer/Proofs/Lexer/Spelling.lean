import ScriptLexer.Proofs.Lexeme.Form
import ScriptLexer.Proofs.Lexer.Answers
import ScriptLexer.Proofs.Token.Keyword

/-!
# The text of a token

The text of a token is either fixed by its kind or shown by its literal, and two tables say which:
`Kind.lexeme?` and `Kind.hasLiteral`. Here they are compared with what is read. A kind with a fixed
text is read from exactly that text. The literal of a number, a name, a variable or a heredoc's
opener is the text itself; a variable that interrupts a text is the one exception, since its token
begins with the hash sign and its literal does not. What is left are the pieces of text, whose
literals are decoded.

The tokens for the end of a line and of the script have neither text nor literal, and an illegal
token may have a literal or not.

## Main definitions

* `Kind.showsText` — the kinds whose literals are their own text
* `Outcome.Tells` — what an outcome says of the bytes that it was read from

## Main results

* `Layer.tells_read` — what begins with a byte tells its text
* `Lexer.tokens_spell` — the text of a token can be recovered
-/

namespace ScriptLexer

namespace Kind

/-- Whether a token of the kind shows its own text. -/
def showsText : Kind → Bool
  | decimalInteger | binaryInteger | octalInteger | hexadecimalInteger | float => true
  | localVariable | methodName | constant => true
  | globalVariable | instanceVariable | classVariable => true
  | heredocBegin => true
  | _ => false

variable {k : Kind}

/-- A kind has a fixed text or a literal, unless it stands for the end of something. -/
theorem isSome_lexeme? (hcontinuation : k ≠ .continuation) (hline : k ≠ .newLine)
    (hend : k ≠ .endOfInput) : k.lexeme?.isSome = !k.hasLiteral := by
  cases k <;> first | rfl | contradiction

theorem hasLiteral_of_showsText (h : k.showsText) : k.hasLiteral ∧ k.lexeme? = none := by
  cases k <;> first | exact ⟨rfl, rfl⟩ | cases h

theorem showsText_of_isSigiled (h : k.isSigiled) : k.showsText := by
  cases k <;> first | rfl | cases h

end Kind

theorem Number.showsText_read (rest : List Byte) : (read rest).1.showsText := by
  have hkind := kind_read rest
  simp only [kinds, List.mem_cons, List.not_mem_nil, or_false] at hkind
  rcases hkind with h | h | h | h | h <;> rw [h] <;> rfl

namespace Name

variable {defining : Bool} {rest : List Byte} {kind : Kind} {length : Nat} {k : Keyword}

/-- A name that is read as a keyword is its text. -/
theorem bytes_of_read (h : read defining rest = (.keyword k, length)) :
    k.bytes = rest.take length := by
  simp only [read] at h
  split at h
  · rename_i k' hfound
    cases h
    exact Keyword.bytes_of_ofBytes? hfound
  · have hshape := spelled_shape defining rest
    rw [(Prod.mk.inj h).1] at hshape
    cases hshape.2

theorem showsText_of_read (h : read defining rest = (kind, length))
    (hkind : ∀ k, kind ≠ .keyword k) : kind.showsText := by
  simp only [read] at h
  split at h
  · cases h
    exact absurd rfl (hkind _)
  · have hshape := kind_shape defining rest
    rw [(Prod.mk.inj h).1] at hshape
    simp only [List.mem_cons, List.not_mem_nil, or_false] at hshape
    rcases hshape with rfl | rfl | rfl <;> rfl

end Name

namespace Introducer

variable {bytes : List Byte}

theorem take_of_statements (h : read? bytes = some .statements) :
    Byte.ofString "#\x7b" = bytes.take 2 := by
  rw [read?.eq_def] at h
  split at h
  · rfl
  · split at h <;> cases h
  · cases h

theorem head?_of_variableName {kind : Kind} {length : Nat}
    (h : read? bytes = some (.variableName kind length)) :
    bytes.head? = some (Byte.ofChar '#') := by
  rw [read?.eq_def] at h
  split at h
  · rfl
  · rfl
  · cases h

end Introducer

/-! ### Outcomes -/

namespace Outcome

/-- What an outcome says of the bytes that it begins, in a construct that holds statements or one
that holds text. -/
structure Tells (bytes : List Byte) (inStatements : Bool) (o : Outcome) : Prop where
  literal : o.kind ≠ .illegal → o.literal.isSome = o.kind.hasLiteral
  lexeme : ∀ text, o.kind.lexeme? = some text → Byte.ofString text = bytes.take o.length
  /-- Only a variable stands between pieces of text, and a hash sign in front of it. -/
  shown : o.kind.showsText → o.literal = some (if inStatements then bytes.take o.length
    else (bytes.take o.length).drop 1)
  sigiled : o.kind.showsText → inStatements = false →
    o.kind.isSigiled ∧ bytes.head? = some (Byte.ofChar '#')

variable {bytes : List Byte} {inStatements : Bool} {kind : Kind} {length : Nat} {turn : Turn}
  {fault : Option Diagnostic}

/-- A token whose literal is its text. -/
theorem tells_spelled (hkind : kind.showsText) :
    Tells bytes true ⟨kind, length, some (bytes.take length), turn, fault⟩ where
  literal _ := (Kind.hasLiteral_of_showsText hkind).1.symm
  lexeme text h := by
    rw [(Kind.hasLiteral_of_showsText hkind).2] at h
    cases h
  shown _ := rfl
  sigiled _ h := by cases h

/-- A token whose text is fixed. -/
theorem tells_fixed {text : String} (htext : kind.lexeme? = some text)
    (hbytes : Byte.ofString text = bytes.take length) :
    Tells bytes inStatements ⟨kind, length, none, turn, fault⟩ where
  literal _ := by cases kind <;> first | rfl | cases htext
  lexeme text' h := by
    rw [htext] at h
    cases h
    exact hbytes
  shown h := by
    rw [(Kind.hasLiteral_of_showsText h).2] at htext
    cases htext
  sigiled h := by
    rw [(Kind.hasLiteral_of_showsText h).2] at htext
    cases htext

/-- A piece of text has a literal, which need not be its text. -/
theorem tells_text {style : Style} {lineStart : Bool} {ending : Stop → Ending} {opener : Nat}
    (hending : ∀ stop, (ending stop).kind.isRewritten) :
    (text style lineStart ending opener bytes).Tells bytes inStatements := by
  have hkind : (text style lineStart ending opener bytes).kind.isRewritten := hending _
  have hliteral : (text style lineStart ending opener bytes).literal.isSome := rfl
  generalize text style lineStart ending opener bytes = o at hkind hliteral
  obtain ⟨kind, length, literal, turn, fault⟩ := o
  have hplain : kind.showsText = false ∧ kind.lexeme? = none ∧ kind.hasLiteral := by
    cases kind <;> first | exact ⟨rfl, rfl, rfl⟩ | cases hkind
  constructor
  · intro _
    exact hliteral.trans hplain.2.2.symm
  · intro text h
    rw [hplain.2.1] at h
    cases h
  · intro h
    rw [hplain.1] at h
    cases h
  · intro h
    rw [hplain.1] at h
    cases h

/-- A token that stands for nothing of its own. -/
theorem tells_nothing (hkind : kind.hasLiteral = false ∨ kind = .illegal) (hlexeme : kind.lexeme? = none)
    {literal : Option (List Byte)} (hliteral : kind ≠ .illegal → literal = none) :
    Tells bytes inStatements ⟨kind, length, literal, turn, fault⟩ := by
  have hshown : kind.showsText = false := by
    rcases hkind with hkind | rfl
    · rw [Bool.eq_false_iff]
      intro h
      rw [(Kind.hasLiteral_of_showsText h).1] at hkind
      cases hkind
    · rfl
  constructor
  · intro hne
    rw [hliteral hne, hkind.resolve_right hne]
    rfl
  · intro text h
    rw [hlexeme] at h
    cases h
  · intro h
    rw [hshown] at h
    cases h
  · intro h
    rw [hshown] at h
    cases h

/-- **What a lexeme describes tells its text.** -/
theorem tells_ofLexeme {l : Lookback} {lineStart : Bool} {lexeme : Lexeme}
    (h : lexeme.Form l lineStart bytes) : (ofLexeme bytes lexeme).Tells bytes true := by
  cases h with
  | keyword hstart h => exact tells_fixed rfl (Name.bytes_of_read h)
  | name hstart h hkind => exact tells_spelled (Name.showsText_of_read h hkind)
  | number => exact tells_spelled (Number.showsText_read _)
  | signedNumber => exact tells_spelled (Number.showsText_read _)
  | lineEnd hb => exact tells_nothing (.inl rfl) rfl fun _ => rfl
  | string isVerbatim hquote =>
    cases isVerbatim
    · exact tells_text fun stop => by cases stop <;> rfl
    · exact tells_text fun stop => by cases stop <;> rfl
  | @percent rest d h =>
    cases d.verbatim
    · exact tells_text fun stop => by cases stop <;> rfl
    · exact tells_text fun stop => by cases stop <;> rfl
  | named h => exact tells_spelled (Kind.showsText_of_isSigiled (Variable.isSigiled_of_read? h))
  | heredoc h => exact tells_spelled rfl
  | punctuator h =>
    refine tells_fixed rfl ?_
    exact List.prefix_iff_eq_take.mp (Punctuator.bytes_prefix_of_read? h)
  | nameless h | broken h | comment h | backslash | unexpected h =>
    exact tells_nothing (.inr rfl) rfl fun hne => absurd rfl hne

/-- An introducer tells its text; that of a variable begins behind a hash sign. -/
theorem tells_introducer? {o : Outcome} (h : introducer? bytes = some o) : o.Tells bytes false := by
  rw [introducer?] at h
  split at h
  · cases h
  · rename_i hread
    cases h
    exact tells_fixed rfl (Introducer.take_of_statements hread)
  · rename_i kind length hread
    cases h
    have hkind := Introducer.isSigiled_of_read? hread
    have hshown := Kind.showsText_of_isSigiled hkind
    constructor
    · exact fun _ => (Kind.hasLiteral_of_showsText hshown).1.symm
    · intro text h
      rw [(Kind.hasLiteral_of_showsText hshown).2] at h
      cases h
    · intro _
      rw [List.drop_take, Nat.add_sub_cancel_left]
      rfl
    · exact fun _ _ => ⟨hkind, Introducer.head?_of_variableName hread⟩

end Outcome

/-- **What begins with a byte tells its text,** in every construct. -/
theorem Layer.tells_read (layer : Layer) (lineStart : Bool) (b : Byte) (rest : List Byte) :
    (layer.read lineStart b rest).Tells (b :: rest) layer.scene.holdsStatements := by
  have hstatement := Outcome.tells_ofLexeme (Lexeme.form_read layer.lookback lineStart b rest)
  have hbody : ∀ style : Style, (Outcome.text style lineStart .body 0 (b :: rest)).Tells
      (b :: rest) false :=
    fun style => Outcome.tells_text fun stop => by cases stop <;> rfl
  obtain ⟨scene, lookback⟩ := layer
  cases scene with
  | statements => exact hstatement
  | quoted close =>
    simp only [read]
    cases ho : Outcome.introducer? (b :: rest) with
    | some o => exact Outcome.tells_introducer? ho
    | none => exact Outcome.tells_text fun stop => by cases stop <;> rfl
  | interpolation braces =>
    simp only [read]
    split
    · rename_i hclose
      rw [hclose.2]
      exact Outcome.tells_fixed rfl rfl
    · exact hstatement
  | heredocLine style =>
    simp only [read]
    split
    · exact Outcome.tells_nothing (.inl rfl) rfl fun _ => rfl
    · exact hstatement
  | heredocBody style =>
    simp only [read]
    split
    · cases ho : Outcome.introducer? (b :: rest) with
      | some o => exact Outcome.tells_introducer? ho
      | none => exact hbody style
    · exact hbody style

/-- What is found at the end tells nothing. -/
theorem Outlook.tells_finish (o : Outlook) (bytes : List Byte) (inStatements : Bool) :
    o.finish.Tells bytes inStatements :=
  Outcome.tells_nothing (.inl rfl) rfl fun _ => rfl

/-- **What a call finds tells the text that lies ahead.** -/
theorem Outlook.tells_next (o : Outlook) :
    o.next.1.Tells o.settle.rest o.settle.top.scene.holdsStatements := by
  rw [next]
  cases hrest : o.settle.rest with
  | nil =>
    rw [step_of_nil hrest]
    exact tells_finish ..
  | cons b rest =>
    rw [step_of_cons hrest]
    exact o.settle.top.tells_read _ b rest

/-! ### Calls -/

namespace Lexer

variable {source : List Byte} {l l' : Lexer} {token : Token}

theorem holdsStatements_settle (source : List Byte) (l : Lexer) :
    (l.outlook source).settle.top.scene.holdsStatements = l.stack.top.region.holdsStatements := by
  obtain ⟨lookback, hstack⟩ := exists_settle_stack l
  rw [← outlook_settle]
  show (l.settle.stack.top.region.scene source).holdsStatements = _
  rw [hstack]
  exact Region.holdsStatements_scene source _

/-- The literal of a token reads what its span has in the buffer. -/
theorem Moves.literal_eq (h : Moves source l token l') {bytes : List Byte}
    (hbytes : token.literal.bind (·.slice? l'.tape.buffer) = some bytes) :
    l'.literal token = .ok (some bytes) := by
  obtain ⟨s, hs, hslice⟩ := Option.bind_eq_some_iff.mp hbytes
  obtain ⟨bytes', hslice', hliteral⟩ := h.exists_literal hs
  rw [hslice] at hslice'
  cases hslice'
  exact hliteral

/-- A token has a literal if the buffer has bytes for it. -/
theorem Moves.isSome_literal (h : Moves source l token l') :
    token.literal.isSome = (token.literal.bind (·.slice? l'.tape.buffer)).isSome := by
  cases hs : token.literal with
  | none => rfl
  | some s =>
    obtain ⟨bytes, hslice, -⟩ := h.exists_literal hs
    rw [Option.bind_some, hslice]
    rfl

/-- **The text of a token can be recovered.** Whatever the number of calls before, the next one
answers with a token that has either a fixed text or a literal, as its kind says, unless it is
illegal or stands for the end of a line or of the script. A fixed text is the text that was read.
The literal of a number, a name, a variable, a constant or a heredoc's opener is the text that was
read; between pieces of text only variables are read of these, and the literal of such a variable
leaves out the hash sign that its text begins with. -/
theorem tokens_spell (source : List Byte) (n : Nat) :
    ∃ tokens l token l', calls next n (ofBytes source) = .ok (tokens, l)
      ∧ l.next = .ok (token, l')
      ∧ let text := (source.drop token.pos).take (l'.pos - token.pos)
        (token.kind ≠ .newLine → token.kind ≠ .endOfInput → token.kind ≠ .illegal →
          token.kind.lexeme?.isSome ≠ token.literal.isSome
            ∧ token.literal.isSome = token.kind.hasLiteral)
        ∧ (∀ x, token.kind.lexeme? = some x → Byte.ofString x = text)
        ∧ (token.kind.showsText →
          if l.stack.top.region.holdsStatements then l'.literal token = .ok (some text)
          else token.kind.isSigiled ∧ text.head? = some (Byte.ofChar '#')
            ∧ l'.literal token = .ok (some (text.drop 1))) := by
  obtain ⟨tokens, l, hcalls, hl⟩ := exists_calls source n
  obtain ⟨token, l', hnext, hmoves⟩ := exists_next hl
  have hanswers := ((sound_ofBytes source).of_calls hcalls).answers hnext
  have htells := (l.outlook source).tells_next
  rw [holdsStatements_settle] at htells
  refine ⟨tokens, l, token, l', hcalls, hnext, ?_⟩
  intro text
  have htext : text = _ := hanswers.text_eq hl
  rw [htext, hanswers.kind, hmoves.isSome_literal, hanswers.literal]
  refine ⟨fun hline hend hillegal => ?_, htells.lexeme, fun hshown => ?_⟩
  · have hliteral := htells.literal hillegal
    have hkind := Kind.isSome_lexeme? (hanswers.kind ▸ hmoves.kind) hline hend
    rw [hliteral, hkind]
    exact ⟨by simp, rfl⟩
  · have hliteral := hanswers.literal.trans (htells.shown hshown)
    split
    · rename_i hregion
      rw [if_pos hregion] at hliteral
      exact hmoves.literal_eq hliteral
    · rename_i hregion
      rw [if_neg hregion] at hliteral
      obtain ⟨hkind, hhead⟩ := htells.sigiled hshown (eq_false_of_ne_true hregion)
      refine ⟨hkind, ?_, hmoves.literal_eq hliteral⟩
      have hlt : token.pos < l'.pos := by
        refine hmoves.advances fun hend => ?_
        rw [← hanswers.kind, hend] at hkind
        cases hkind
      have hends := hanswers.ends
      rw [List.head?_take, if_neg (by omega), hhead]

end Lexer

end ScriptLexer
