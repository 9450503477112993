import ScriptLexer.Proofs.Text.Stop
import ScriptLexer.Proofs.Word.Escape

/-!
# Text on machine words

The text of a literal as a machine reads it, piece by piece to where it stops. The number of bytes
that close a heredoc is a length in memory before it is a distance between offsets, and what is
elided is counted in a word all the way.

The relation that keeps every write within the buffer is between two numbers only: the bytes that
have been elided are no more than those that have been read. Each piece keeps it, so decoding has no
fault wherever it begins.

## Main definitions

* `transcribe` — decodes text in place until it stops

## Main results

* `write_eq` — a piece is written without a fault
* `transcribe_eq` — so is a text, and it is the one that `Tape.transcribe` writes
-/

namespace ScriptLexer

/-! ### What a piece leaves behind -/

namespace Tape

variable {t t' : Tape} {b : Byte} {bytes : List Byte} {skip : Nat} {p : Piece}

theorem pos_compact (hrest : t.rest ≠ []) (h : t.compact skip b = .ok t') :
    t'.pos = t.pos + 1 := by
  rw [compact] at h
  split at h
  · split at h
    · rename_i hnil
      exact absurd hnil hrest
    · cases h
      simp [pos]
  · cases h

/-- Writing at the reading offset writes what is read. -/
theorem compact_zero (hrest : t.rest = b :: bytes) : t.compact 0 b = .ok t.advance := by
  rw [compact, if_pos (Nat.zero_le _), hrest, advance, hrest]
  refine congrArg Except.ok (ext_parts ?_ rfl rfl rfl)
  simp [pos]

/-- **A piece is read whole, and no more is elided than it has.** -/
theorem pos_write {r : Tape × Nat} (hle : p.length ≤ t.rest.length) (h : t.write skip p = .ok r) :
    r.1.pos = t.pos + p.length ∧ r.2 ≤ skip + p.length := by
  have hmore : p.more < t.rest.length := hle
  rw [write, noteIn_eq_keep] at h
  generalize hkept : t.keep _ = kept at h
  have hrest : kept.rest = t.rest := by rw [← hkept, rest_keep]
  have hpos : kept.pos = t.pos := by rw [← hkept, pos_keep]
  split at h
  · split at h
    · rename_i hcompact
      cases h
      refine ⟨?_, Nat.le_succ _⟩
      rw [pos_compact (List.ne_nil_of_length_pos ?_) hcompact, pos_advanceBy, hrest, hpos,
        Nat.min_eq_left (Nat.le_of_lt hmore), Piece.length, Nat.add_assoc]
      rw [rest_advanceBy, List.length_drop, hrest]
      omega
    · cases h
  · cases h
    refine ⟨?_, Nat.le_refl _⟩
    rw [pos_advanceBy, hrest, hpos, Nat.min_eq_left hle]

theorem skip_write {v : Byte} {r : Tape × Nat} (hvalue : p.value = some v)
    (h : t.write skip p = .ok r) : r.2 = skip + p.more := by
  rw [write, hvalue] at h
  split at h
  · split at h
    · cases h
      rfl
    · cases h
  · rename_i hnone
    cases hnone

end Tape

namespace Word

/-! ### Where text is closed -/

/-- The number of bytes up to the end of the identifier, if the bytes ahead begin with the line and
if that is a distance between offsets. -/
def terminator? (close : TerminatorLine) (t : Tape) : Except Fault (Option Nat) := do
  let ahead ← rest t
  let indent := if close.indented then (ahead.takeWhile Byte.isBlank).length else 0
  if (Line.behind? close.identifier (ahead.drop indent)).any Line.endsHere then
    let length ← add sizes indent close.identifier.length
    return if length < offsets then some length else none
  else return none

/-- The number of bytes that close the text here. The byte in front of a line that may close it is
looked up. -/
def close? (lineStart : Bool) (t : Tape) : Style → Except Fault (Option Nat)
  | .verbatim close | .decoded close =>
    .ok (if t.rest.head? = some close then some 1 else none)
  | .verbatimLines close | .decodedLines close => do
    let _ ← isLineStart t.pos t
    if lineStart then terminator? close t else return none

/-- Why the text stops before the bytes ahead, if it does. -/
def stop? (lineStart : Bool) (t : Tape) (style : Style) : Except Fault (Option Stop) := do
  match ← close? lineStart t style with
  | some length => return some (.closed length)
  | none =>
    let ahead ← rest t
    return if style.decodes && (Introducer.read? ahead).isSome then some .interpolation else none

/-! ### Decoding -/

/-- Writes a byte of verbatim quoted text. -/
def writeShielded (close : Byte) (skip : Nat) (b : Byte) (t : Tape) :
    Except Fault (Tape × Nat) := do
  let c ← peekByte 1 t
  if 1 < t.rest.length ∧ b = Byte.ofChar '\\' ∧ (c = Byte.ofChar '\\' ∨ c = close) then
    let t ← advance t
    let skip ← add offsets skip 1
    writeByte skip c t
  else writeByte skip b t

/-- Writes the piece that begins with `b`. Verbatim lines are only read. -/
def write (style : Style) (skip : Nat) (b : Byte) (t : Tape) : Except Fault (Tape × Nat) :=
  match style with
  | .verbatim close => writeShielded close skip b t
  | .decoded _ | .decodedLines _ =>
    if b = Byte.ofChar '\\' then decodeEscape skip t else writeByte skip b t
  | .verbatimLines _ => do
    let t ← advance t
    return (t, skip)

/-- A piece has a byte at least. -/
theorem leaves_write (style : Style) (skip : Nat) (b : Byte) (t : Tape) :
    Leaves (t.rest.length - 1) (write style skip b t) := by
  have hplain := leaves_writeByte skip b t
  cases style with
  | verbatim close =>
    refine .bind fun c _ => ?_
    split
    · refine .bind fun u hu => .bind fun _ _ => leaves_writeByte_of_le ?_
      exact Nat.le_of_eq (length_rest_advance hu)
    · exact hplain
  | decoded close | decodedLines close =>
    rw [write]
    split
    · exact leaves_decodeEscape skip t
    · exact hplain
  | verbatimLines close => exact .bind fun u hu => leaves_ok (Nat.le_of_eq (length_rest_advance hu))

/-- Decodes text in place until it stops. `lineStart` tells whether a line of the text begins at
the reading offset, and `skip` how many bytes have been elided already. -/
def transcribe (style : Style) (lineStart : Bool) (skip : Nat) (t : Tape) :
    Except Fault Transcript := do
  match ← stop? lineStart t style with
  | some stop => return ⟨t, skip, stop⟩
  | none =>
    match _hr : t.rest with
    | [] => return ⟨t, skip, .endOfInput⟩
    | b :: _ =>
      match _h : write style skip b t with
      | .error e => .error e
      | .ok (t', skip') => transcribe style (b == Byte.newline) skip' t'
termination_by t.rest.length
decreasing_by
  have hleaves := leaves_write style skip b t _ _h
  rw [_hr, List.length_cons] at hleaves ⊢
  exact Nat.lt_succ_of_le hleaves

/-! ### No fault where text is closed -/

variable {t : Tape} {skip : Nat} {b : Byte} {bytes : List Byte}

theorem offsets_le_sizes : offsets ≤ sizes := by
  decide

theorem terminator?_eq (h : t.Fits) (close : TerminatorLine) :
    terminator? close t = .ok (close.read? t.rest) := by
  rw [Tape.Fits] at h
  have hsizes := offsets_le_sizes
  have hbounds : ∀ {n}, close.read? t.rest = some n → n ≤ t.rest.length :=
    fun hn => (TerminatorLine.read?_bounds hn).2
  rw [terminator?, rest_eq, ok_bind]
  rw [TerminatorLine.read?] at hbounds ⊢
  simp only at hbounds ⊢
  generalize (if close.indented then (t.rest.takeWhile Byte.isBlank).length else 0) = indent
    at hbounds ⊢
  by_cases hfound : (Line.behind? close.identifier (t.rest.drop indent)).any Line.endsHere
  · have hlength := hbounds (if_pos hfound)
    rw [if_pos hfound, if_pos hfound, add_eq (by omega), ok_bind, if_pos (by omega)]
    rfl
  · rw [if_neg hfound, if_neg hfound]
    rfl

theorem close?_eq (h : t.Fits) (lineStart : Bool) (style : Style) :
    close? lineStart t style = .ok (style.close? lineStart t.rest) := by
  cases style with
  | verbatim close | decoded close => rfl
  | verbatimLines close | decodedLines close =>
    rw [close?, isLineStart_eq, ok_bind, Style.close?]
    split
    · exact terminator?_eq h close
    · rfl

theorem stop?_eq (h : t.Fits) (lineStart : Bool) (style : Style) :
    stop? lineStart t style = .ok (style.stop? lineStart t.rest) := by
  rw [stop?, close?_eq h, ok_bind, Style.stop?]
  cases style.close? lineStart t.rest with
  | some length => rfl
  | none =>
    simp only
    rw [rest_eq, ok_bind]
    rfl

/-! ### Decoding has no fault -/

theorem writeByte_plain (h : t.Fits) (hskip : skip ≤ t.pos) (hrest : t.rest ≠ []) (b : Byte) :
    writeByte skip b t = lift (t.write skip (.plain b)) := by
  have hcoded := writeByte_coded h hskip (List.length_pos_iff.mpr hrest) b
  rwa [Tape.advanceBy_zero] at hcoded

theorem writeShielded_eq (h : t.Fits) (hskip : skip ≤ t.pos) (hrest : t.rest = b :: bytes)
    (close : Byte) :
    writeShielded close skip b t = lift (t.write skip (Style.shielded close b bytes)) := by
  have hfits := h
  rw [Tape.Fits] at hfits
  have hlength := congrArg List.length hrest
  have hplain := writeByte_plain h hskip (by rw [hrest]; exact List.cons_ne_nil b bytes) b
  rw [writeShielded, peekByte_eq h, ok_bind, Style.shielded.eq_def]
  cases bytes with
  | nil =>
    rw [if_neg fun hshields => absurd hshields.1 (by rw [hlength]; exact Nat.lt_irrefl 1)]
    exact hplain
  | cons c bytes =>
    rw [List.length_cons, List.length_cons] at hlength
    have hnext : t.peekByte 1 = c := by
      rw [peekByte_eq_headD, hrest]
      rfl
    simp only [hnext, Bool.and_eq_true, Bool.or_eq_true, beq_iff_eq]
    by_cases hshields : b = Byte.ofChar '\\' ∧ (c = Byte.ofChar '\\' ∨ c = close)
    · rw [if_pos ⟨by omega, hshields⟩, if_pos hshields, advance_eq h, ok_bind,
        add_eq (by omega), ok_bind, Tape.advance_eq_advanceBy]
      exact writeByte_coded h hskip (by omega) c
    · rw [if_neg fun hshielded => hshields hshielded.2, if_neg hshields]
      exact hplain

/-- **A piece is written without a fault.** Where lines are verbatim nothing has been elided. -/
theorem write_eq {style : Style} (h : t.Fits) (hskip : skip ≤ t.pos) (hrest : t.rest = b :: bytes)
    (hlines : ∀ close, style = .verbatimLines close → skip = 0) :
    write style skip b t = lift (t.write skip (style.piece b bytes)) := by
  have hplain := writeByte_plain h hskip (by rw [hrest]; exact List.cons_ne_nil b bytes) b
  cases style with
  | verbatim close => exact writeShielded_eq h hskip hrest close
  | decoded close | decodedLines close =>
    simp only [write, Style.piece, beq_iff_eq]
    split
    · exact decodeEscape_eq h hskip hrest
    · exact hplain
  | verbatimLines close =>
    obtain rfl := hlines close rfl
    rw [write, advance_eq h, ok_bind, Style.piece, ← hplain, writeByte, compact_eq h hskip,
      Tape.compact_zero hrest]
    rfl

/-! ### How decoding unfolds -/

section Unfold

variable {style : Style} {lineStart : Bool} {stop : Stop}

theorem transcribe_of_stop (h : t.Fits) (hstop : style.stop? lineStart t.rest = some stop) :
    transcribe style lineStart skip t = .ok ⟨t, skip, stop⟩ := by
  rw [transcribe, stop?_eq h, hstop]
  rfl

theorem transcribe_nil (h : t.Fits) (hstop : style.stop? lineStart t.rest = none)
    (hrest : t.rest = []) : transcribe style lineStart skip t = .ok ⟨t, skip, .endOfInput⟩ := by
  rw [transcribe, stop?_eq h, hstop, ok_bind]
  simp only
  split
  · rfl
  · rename_i hcons
    rw [hrest] at hcons
    cases hcons

theorem transcribe_cons (h : t.Fits) (hstop : style.stop? lineStart t.rest = none)
    (hrest : t.rest = b :: bytes) :
    transcribe style lineStart skip t
      = (do
        let (t', skip') ← write style skip b t
        transcribe style (b == Byte.newline) skip' t') := by
  rw [transcribe, stop?_eq h, hstop, ok_bind]
  simp only
  split
  · rename_i hnil
    rw [hrest] at hnil
    cases hnil
  · rename_i hcons
    rw [hrest] at hcons
    cases hcons
    split <;> rename_i hwrite <;> rw [hwrite] <;> rfl

end Unfold

/-- **Decoding has no fault,** and is decoding on numbers. -/
theorem transcribe_eq {style : Style} {lineStart : Bool} (h : t.Fits) (hskip : skip ≤ t.pos)
    (hlines : ∀ close, style = .verbatimLines close → skip = 0) :
    transcribe style lineStart skip t = lift (t.transcribe style lineStart skip) := by
  induction lineStart, skip, t using Tape.transcribe.induct style with
  | case1 lineStart skip t stop hstop =>
    rw [transcribe_of_stop h hstop, Tape.transcribe_of_stop hstop]
    rfl
  | case2 lineStart skip t hstop hrest =>
    rw [transcribe_nil h hstop hrest, Tape.transcribe_nil hstop hrest]
    rfl
  | case3 lineStart skip t hstop b bytes hrest e hwrite =>
    rw [transcribe_cons h hstop hrest, write_eq h hskip hrest hlines,
      Tape.transcribe_cons hstop hrest, hwrite]
    rfl
  | case4 lineStart skip t hstop b bytes hrest t' skip' hwrite ih =>
    have hmore := Style.more_piece_le style b bytes
    have hlength : (style.piece b bytes).length ≤ t.rest.length := by
      rw [Piece.length, hrest, List.length_cons]
      omega
    obtain ⟨hpos, hskip'⟩ : t'.pos = _ ∧ skip' ≤ _ := Tape.pos_write hlength hwrite
    have hfits' : t'.Fits := by
      rw [Tape.Fits] at h ⊢
      rw [hpos, Tape.rest_write hwrite, List.length_drop]
      omega
    have hlines' : ∀ close, style = .verbatimLines close → skip' = 0 := by
      rintro close rfl
      have hskip : skip' = skip + 0 := Tape.skip_write rfl hwrite
      rw [hskip, hlines close rfl]
    rw [transcribe_cons h hstop hrest, write_eq h hskip hrest hlines,
      Tape.transcribe_cons hstop hrest, hwrite]
    exact ih hfits' (by omega) hlines'

end Word

end ScriptLexer
