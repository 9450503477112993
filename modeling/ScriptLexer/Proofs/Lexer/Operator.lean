import ScriptLexer.Proofs.Lexer.BlockComment
import ScriptLexer.Proofs.Lexer.Detour
import ScriptLexer.Proofs.Lexer.Heredocs
import ScriptLexer.Proofs.Lexer.Numeral

/-!
# The tokens of operators

Where statements are scanned and an operator begins, the token is the longest operator there, unless
one of the four detours opens. The lexer moves by its length, the operator counts for the construct
that it stands in, and nothing else changes, whatever was tried before: the opener of a heredoc or
of a literal is looked for without moving, so an attempt that is given up has nothing to restore.

## Main definitions

* `Detour.Taken` — what is read where a detour opens
* `Punctuator.Contested` — where a detour is tried that may be given up

## Main results

* `Lexer.operators_are_longest` — detour or longest operator, wherever statements are scanned
-/

namespace ScriptLexer

/-- What is read on a detour, at the place `m` on the way from `l` to the next token. -/
inductive Detour.Taken (source : List Byte) (l m : Lexer) : Detour → List Byte → Prop
  /-- The sign and the longest number behind it. -/
  | signedNumber {sign : Byte} {behind text : List Byte} {kind : Kind} {l' : Lexer}
      (hlongest : Longest Number.Spells behind kind text)
      (hnext : l.next
        = .ok (.withLiteral m.pos kind ⟨m.pos, m.pos + (text.length + 1)⟩, l'))
      (htakes : m.Takes (.withLiteral m.pos kind ⟨m.pos, m.pos + (text.length + 1)⟩)
        (text.length + 1) l')
      (hliteral : l'.literal (.withLiteral m.pos kind ⟨m.pos, m.pos + (text.length + 1)⟩)
        = .ok (some (sign :: text))) :
      Taken source l m .signedNumber (sign :: behind)
  /-- The opener of a heredoc, which waits for its identifier from there on. -/
  | heredoc {behind : List Byte} {opener : HeredocOpener} {identifier : Span} {l' : Lexer}
      (hstart : HeredocStart.read behind = .accepted opener)
      (hnext : l.next
        = .ok (.withLiteral m.pos .heredocBegin ⟨m.pos, m.pos + (2 + opener.length)⟩, l'))
      (hends : l'.pos = m.pos + (2 + opener.length))
      (hidentifier : identifier.start = m.pos + 2 + opener.offset
        ∧ identifier.stop = identifier.start + opener.size)
      (hstack : l'.stack = m.stack.commit
        (.push (.heredocLine ⟨identifier, opener.indented, opener.verbatim⟩)) .heredocBegin)
      (hdiagnostic : l'.diagnostic = m.diagnostic) :
      Taken source l m .heredoc (Byte.ofChar '<' :: Byte.ofChar '<' :: behind)
  /-- An opener whose identifier is malformed, which opens nothing. -/
  | brokenHeredoc {behind : List Byte} {length : Nat} {l' : Lexer}
      (hstart : HeredocStart.read behind = .broken length)
      (hnext : l.next
        = .ok (.withLiteral m.pos .illegal ⟨m.pos, m.pos + (length + 2)⟩, l'))
      (hends : l'.pos = m.pos + (length + 2))
      (hstack : l'.stack = m.stack.commit .stay .illegal)
      (hdiagnostic : l'.diagnostic
        = m.diagnostic.or (some ⟨m.pos, .invalidHeredocIdentifier⟩)) :
      Taken source l m .heredoc (Byte.ofChar '<' :: Byte.ofChar '<' :: behind)
  /-- Text up to the byte that closes it, or what there is of it. -/
  | percentLiteral {rest : List Byte} {token : Token} {l' : Lexer}
      (hnext : l.next = .ok (token, l')) (hbegins : token.pos = m.pos)
      (hliteral : token.IsPercentLiteral rest) :
      Taken source l m .percentLiteral (Byte.ofChar '%' :: rest)
  /-- Layout, if the comment is closed. -/
  | blockComment {bytes : List Byte} {m' : Lexer} (hscans : l.Scans m') (hlater : m.pos < m'.pos)
      (hstack : m'.stack = m.stack) (hbuffer : m'.tape.buffer = m.tape.buffer)
      (hdiagnostic : m'.diagnostic = m.diagnostic) :
      Taken source l m .blockComment bytes
  /-- A malformed token, if it is not. -/
  | unclosedComment {bytes : List Byte} {l' : Lexer}
      (hnext : l.next = .ok (.bare m.pos .illegal, l')) (hends : l'.pos = source.length)
      (hdiagnostic : l'.diagnostic = m.diagnostic.or (some ⟨m.pos, .unterminatedComment⟩)) :
      Taken source l m .blockComment bytes

/-- An operator in whose place a heredoc or a percent literal is tried: two less-than signs that
touch no token, and a percent sign where an operand is expected. In front of an equals sign nothing
is tried, since the operator assigns. -/
inductive Punctuator.Contested (l : Lookback) : Punctuator → List Byte → Prop
  | shiftLeft {behind : List Byte} (habuts : l.abuts = false)
      (hassign : behind.head? ≠ some (Byte.ofChar '=')) :
      Contested l .shiftLeft (Byte.ofChar '<' :: Byte.ofChar '<' :: behind)
  | percent {rest : List Byte} (hoperand : l.expectsOperand)
      (hassign : rest.head? ≠ some (Byte.ofChar '=')) :
      Contested l .percent (Byte.ofChar '%' :: rest)

/-- Without an equals sign behind it the operator is read itself. -/
theorem Punctuator.Contested.read?_eq {l : Lookback} {p : Punctuator} {bytes : List Byte}
    (h : Contested l p bytes) : read? bytes = some p := by
  have hplain : ∀ {plain assigning : Punctuator} {rest : List Byte},
      rest.head? ≠ some (Byte.ofChar '=') → withAssign plain assigning rest = plain := by
    intro plain assigning rest hassign
    rw [withAssign.eq_def]
    split
    · exact absurd rfl hassign
    · rfl
  cases h with
  | shiftLeft _ hassign => exact congrArg some (hplain hassign)
  | percent _ hassign => exact congrArg some (hplain hassign)

/-- An opener that does not touch the token in front of it may have a malformed identifier. -/
theorem Lexeme.read_broken {lookback : Lookback} (habuts : lookback.abuts = false)
    {rest : List Byte} {length : Nat} (hstart : HeredocStart.read rest = .broken length)
    (lineStart : Bool) :
    read lookback lineStart (Byte.ofChar '<') (Byte.ofChar '<' :: rest)
      = .malformed .invalidHeredocIdentifier (length + 2) true := by
  have hless : read lookback lineStart (Byte.ofChar '<') (Byte.ofChar '<' :: rest)
      = less lookback (Byte.ofChar '<' :: rest) := rfl
  rw [hless]
  show (if lookback.abuts then _ else _) = _
  rw [habuts, hstart]
  rfl

namespace Lexer

variable {source : List Byte} {l m : Lexer} {b : Byte} {rest : List Byte} {p : Punctuator}

namespace Facing

section Operator

variable (h : m.Facing source b rest) (hp : Punctuator.read? (b :: rest) = some p)

include h hp

/-- The bytes of an operator begin no layout, unless they open a block comment. -/
theorem gap?_of_operator
    (hopens : ¬ BlockComment.opensAt (Line.startsBehind (source.take m.pos)) (b :: rest)) :
    m.gap? = none := by
  obtain ⟨-, hblank, hhash, hbackslash⟩ := Punctuator.first_of_read? hp
  exact h.gap?_eq_none hblank hhash hbackslash hopens

/-- **The longest operator is read where no detour opens.** -/
theorem next_operator (hregion : m.stack.top.region.ReadsStatement b)
    (hnone : ∀ d : Detour, ¬ d.Opens m.stack.top.lookback
      (Line.startsBehind (source.take m.pos)) (b :: rest)) :
    m.next = .ok (.bare m.pos (.punctuator p),
      ⟨m.tape.advanceBy p.bytes.length, m.stack.commit .stay (.punctuator p)⟩) := by
  have hopens : ¬ BlockComment.opensAt (Line.startsBehind (source.take m.pos)) (b :: rest) := by
    rw [BlockComment.opensAt, Bool.and_eq_true, Line.hasWord_iff]
    exact fun hopens => hnone .blockComment (.blockComment hopens.1 hopens.2)
  obtain ⟨r, hr, hnext⟩ := h.exists_reading (h.gap?_of_operator hp hopens) hregion
  rw [Lexeme.read_of_forall_not_opens hp hnone] at hr
  cases hr
  exact hnext

end Operator

/-! ### Detours -/

section Lexeme

variable (h : m.Facing source b rest) (hgap : m.gap? = none)
  (hregion : m.stack.top.region.ReadsStatement b)

include h hgap hregion

/-- An opener of a heredoc. -/
theorem next_heredoc {opener : HeredocOpener}
    (hlexeme : Lexeme.read m.stack.top.lookback (Line.startsBehind (source.take m.pos)) b rest
      = .heredoc opener) :
    ∃ l', m.next
        = .ok (.withLiteral m.pos .heredocBegin ⟨m.pos, m.pos + (2 + opener.length)⟩, l')
      ∧ l'.pos = m.pos + (2 + opener.length)
      ∧ l'.stack = m.stack.commit (.push (.heredocLine
          ⟨⟨m.pos + 2 + opener.offset, m.pos + 2 + opener.offset + opener.size⟩,
            opener.indented, opener.verbatim⟩)) .heredocBegin
      ∧ l'.diagnostic = m.diagnostic := by
  obtain ⟨r, hr, hnext⟩ := h.exists_reading hgap hregion
  have hle := (h.fits_of_read hlexeme).2.2
  rw [hlexeme] at hr
  obtain ⟨identifier, hidentifier, hr⟩ := exists_of_bind_eq_ok hr
  rw [Span.between, if_pos (Nat.le_add_right ..)] at hidentifier
  cases hidentifier
  obtain rfl := Reading.eq_of_spelled hr
  have hends : (m.tape.advanceBy (2 + opener.length)).pos = m.tape.pos + (2 + opener.length) := by
    rw [Tape.pos_advanceBy, Nat.min_eq_left hle]
  rw [hends] at hnext
  exact ⟨_, hnext, hends, rfl, rfl⟩

/-- A malformed token that shows its bytes. -/
theorem next_malformed {cause : Malformation} {n : Nat}
    (hlexeme : Lexeme.read m.stack.top.lookback (Line.startsBehind (source.take m.pos)) b rest
      = .malformed cause n true) :
    ∃ l', m.next = .ok (.withLiteral m.pos .illegal ⟨m.pos, m.pos + n⟩, l')
      ∧ l'.pos = m.pos + n ∧ l'.stack = m.stack.commit .stay .illegal
      ∧ l'.diagnostic = m.diagnostic.or (some ⟨m.pos, cause⟩) := by
  obtain ⟨r, hr, hnext⟩ := h.exists_reading hgap hregion
  have hle := (h.fits_of_read hlexeme).2
  rw [hlexeme] at hr
  obtain rfl := Reading.eq_of_spelled hr
  have hends : ((m.tape.noteAt m.tape.pos cause).advanceBy n).pos = m.tape.pos + n := by
    rw [Tape.pos_advanceBy, Tape.rest_noteAt, Tape.pos_noteAt, Nat.min_eq_left hle]
  rw [hends] at hnext
  refine ⟨_, hnext, hends, rfl, ?_⟩
  show (m.tape.noteAt m.tape.pos cause).diagnostic = _
  rw [Tape.noteAt_eq_keep]
  rfl

end Lexeme

section Detour

variable (hscans : l.Scans m)

include hscans

theorem taken_signedNumber {sign digit : Byte} (h : m.Facing source sign (digit :: rest))
    (habuts : m.stack.top.lookback.abuts = false)
    (hsign : sign = Byte.ofChar '+' ∨ sign = Byte.ofChar '-') (hdigit : digit.isDecimal) :
    Detour.signedNumber.Taken source l m (sign :: digit :: rest) := by
  have hnumber : NumberAt m.stack.top.lookback (sign :: digit :: rest) [sign] (digit :: rest) := by
    refine ⟨rfl, hdigit, .inr ⟨hsign.imp ?_ ?_, habuts⟩⟩ <;> rintro rfl <;> rfl
  have hplain : sign.isBlank = false ∧ sign ≠ Byte.ofChar '#' ∧ sign ≠ Byte.ofChar '\\'
      ∧ sign ≠ Byte.ofChar '=' ∧ sign ≠ Byte.ofChar '\x7d' ∧ sign ≠ Byte.newline := by
    rcases hsign with rfl | rfl <;> decide
  obtain ⟨hblank, hhash, hbackslash, hequals, hbrace, hnewline⟩ := hplain
  have hgap := h.gap?_of_ne_equals hblank hhash hbackslash hequals
  have hregion := Region.ReadsStatement.of_ne hbrace hnewline h.holds
  have hlength := hnumber.length_take
  have hlongest := hnumber.longest
  have hread := hnumber.read_eq (Line.startsBehind (source.take m.pos))
  rw [← hlength] at hread
  generalize htext : (digit :: rest).take (Number.read (digit :: rest)).2 = text
    at hlength hlongest hread
  have htake : (sign :: digit :: rest).take (text.length + 1) = sign :: text := by
    rw [List.take_succ_cons, hlength, htext]
  obtain ⟨l', hnext, htakes, hliteral⟩ := h.next_spelled hgap hregion hread
  exact .signedNumber hlongest (hscans.next_eq.trans hnext) htakes
    (hliteral.trans (congrArg (Except.ok ∘ some) htake))

theorem taken_heredoc {behind : List Byte}
    (h : m.Facing source (Byte.ofChar '<') (Byte.ofChar '<' :: behind))
    (habuts : m.stack.top.lookback.abuts = false) (hfollows : HeredocStart.Follows behind) :
    Detour.heredoc.Taken source l m (Byte.ofChar '<' :: Byte.ofChar '<' :: behind) := by
  have hgap := h.gap?_of_ne_equals rfl (by decide) (by decide) (by decide)
  have hregion : m.stack.top.region.ReadsStatement (Byte.ofChar '<') :=
    .of_ne (by decide) (by decide) h.holds
  cases hstart : HeredocStart.read behind with
  | absent => exact absurd hfollows ((HeredocStart.read_eq_absent_iff behind).mp hstart)
  | accepted opener =>
    obtain ⟨l', hnext, hends, hstack, hdiagnostic⟩ := h.next_heredoc hgap hregion
      (Lexeme.read_heredoc habuts hstart _)
    exact .heredoc hstart (hscans.next_eq.trans hnext) hends ⟨rfl, rfl⟩ hstack hdiagnostic
  | broken length =>
    obtain ⟨l', hnext, hends, hstack, hdiagnostic⟩ := h.next_malformed hgap hregion
      (Lexeme.read_broken habuts hstart _)
    exact .brokenHeredoc hstart (hscans.next_eq.trans hnext) hends hstack hdiagnostic

theorem taken_percentLiteral (h : m.Facing source (Byte.ofChar '%') rest)
    (hoperand : m.stack.top.lookback.expectsOperand)
    (hassign : rest.head? ≠ some (Byte.ofChar '=')) (hfollows : Delimiter.Follows rest) :
    Detour.percentLiteral.Taken source l m (Byte.ofChar '%' :: rest) := by
  have hgap := h.gap?_of_ne_equals rfl (by decide) (by decide) (by decide)
  have hregion : m.stack.top.region.ReadsStatement (Byte.ofChar '%') :=
    .of_ne (by decide) (by decide) h.holds
  obtain ⟨r, -, hnext⟩ := h.exists_reading hgap hregion
  have hbegins : r.token.pos = m.pos := by
    rw [(h.sound.answers hnext).begins, ← h.sound.reads.pos_settle, h.settle_eq hgap]
  have hsource : source.drop r.token.pos = Byte.ofChar '%' :: rest := by
    rw [hbegins, h.drop_eq]
  have hkind := (h.sound.reads.moves hnext).kind_ne_endOfInput hsource (by decide)
  rcases Lexeme.read_percent m.stack.top.lookback (Line.startsBehind (source.take m.pos)) hassign
    with ⟨d, -, hd, hlexeme⟩ | ⟨hnot, -⟩
  · have hlexeme : m.lexeme (Byte.ofChar '%') rest = .quoted d.verbatim d.close (d.length + 1) := by
      rw [lexeme, h.settle_eq hgap, h.isLineStart_eq, hlexeme]
    obtain ⟨hquoted, stop, hliteral⟩ := h.sound.next_quoted hnext hkind hsource hregion hlexeme
    exact .percentLiteral (hscans.next_eq.trans hnext) hbegins ⟨d, stop, hd, hquoted, hliteral⟩
  · exact absurd ⟨hoperand, (Delimiter.isSome_read?_iff rest).mpr hfollows⟩ hnot

theorem taken_blockComment (h : m.Facing source (Byte.ofChar '=') rest)
    (hopens : Line.WordAt BlockComment.opener source m.pos) :
    Detour.blockComment.Taken source l m (Byte.ofChar '=' :: rest) := by
  have hgap := h.gap?_eq hopens
  cases hlength : BlockComment.length? rest with
  | some n =>
    rw [Gap.blockComment?, hlength, Option.map_some] at hgap
    refine .blockComment (hscans.behind hgap) ?_ ?_ (Tape.buffer_advanceBy _ _) rfl
    · rw [pos_pass hgap]
      exact Nat.lt_add_of_pos_right (Nat.succ_pos _)
    · rw [pass, Lookback.afterGap_false]
      rfl
  | none =>
    obtain ⟨l', hnext, hends, hdiagnostic⟩ := h.next_of_length?_eq_none hopens hlength
    exact .unclosedComment (hscans.next_eq.trans hnext) hends hdiagnostic

/-- **Where a detour opens it is taken.** -/
theorem taken (h : m.Facing source b rest) {d : Detour}
    (hopens : d.Opens m.stack.top.lookback (Line.startsBehind (source.take m.pos)) (b :: rest)) :
    d.Taken source l m (b :: rest) := by
  cases hopens with
  | signedNumber habuts hsign hdigit => exact taken_signedNumber hscans h habuts hsign hdigit
  | heredoc habuts hfollows => exact taken_heredoc hscans h habuts hfollows
  | percentLiteral hoperand hassign hfollows =>
    exact taken_percentLiteral hscans h hoperand hassign hfollows
  | blockComment hline hstarts =>
    have hword : Line.WordAt BlockComment.opener source m.pos := ⟨hline, by rwa [h.drop_eq]⟩
    obtain ⟨behind, hbytes, -⟩ := hstarts
    obtain ⟨rfl, rfl⟩ := List.cons.inj hbytes
    exact taken_blockComment hscans h hword

end Detour

end Facing

/-- **Operators are the longest.** Wherever statements are scanned and a byte stands that begins an
operator, either a detour opens, which is taken, or the token is the longest operator that begins
the bytes, and the lexer moves by its length and reports nothing. An attempt at a heredoc or at a
percent literal that is given up leaves nothing behind: the lexer goes on from where it was. -/
theorem operators_are_longest (source : List Byte) (n : Nat) :
    ∃ tokens l, calls next n (ofBytes source) = .ok (tokens, l)
      ∧ ∀ m b rest, l.Scans m → source.drop m.pos = b :: rest →
          m.stack.top.region.ReadsStatement b →
          (∃ kind text, Kind.SpellsOperator kind text ∧ text.head? = some b) →
          let lookback := m.stack.top.lookback
          let opens (d : Detour) :=
            d.Opens lookback (Line.startsBehind (source.take m.pos)) (b :: rest)
          (∀ d, opens d → d.Taken source l m (b :: rest))
            ∧ ((∀ d, ¬ opens d) →
                (∃ kind text l', Longest Kind.SpellsOperator (b :: rest) kind text
                  ∧ l.next = .ok (.bare m.pos kind, l')
                  ∧ m.Takes (.bare m.pos kind) text.length l')
                ∧ ∀ p, Punctuator.Contested lookback p (b :: rest) →
                    l.next = .ok (.bare m.pos (.punctuator p),
                      ⟨m.tape.advanceBy p.bytes.length,
                        m.stack.commit .stay (.punctuator p)⟩)) := by
  obtain ⟨tokens, l, hcalls, -⟩ := exists_calls source n
  have hsound := (sound_ofBytes source).of_calls hcalls
  refine ⟨tokens, l, hcalls, ?_⟩
  rintro m b rest hscans hsource hregion ⟨kind, text, hspells, hhead⟩ lookback opens
  obtain ⟨q, rfl, rfl⟩ := Kind.spellsOperator_iff.mp hspells
  obtain ⟨p, hp⟩ := Punctuator.exists_read? hhead rest
  have hunderscore : b ≠ Byte.ofChar '_' := by
    rintro rfl
    cases (Punctuator.first_of_read? hp).1
  have hfacing := hscans.facing hsound hsource (not_endMarkerAt hsource hunderscore)
  refine ⟨fun d hopens => Facing.taken hscans hfacing hopens, fun hnone => ⟨?_, ?_⟩⟩
  · have hnext := hfacing.next_operator hp hregion hnone
    refine ⟨_, p.bytes, _, Punctuator.longest_read? hp, hscans.next_eq.trans hnext,
      takes_advanceBy ?_ rfl⟩
    rw [hfacing.rest_eq]
    exact (Punctuator.bytes_prefix_of_read? hp).length_le
  · intro p' hcontested
    exact hscans.next_eq.trans (hfacing.next_operator hcontested.read?_eq hregion hnone)

end Lexer

end ScriptLexer
