import ScriptLexer.Proofs.Lexeme.Extent
import ScriptLexer.Proofs.Lexeme.Line
import ScriptLexer.Proofs.Text.Passage

/-!
# Where a passage stops

A passage ends with the bytes, or where its style says that the text stops. In the second case the
bytes that close the text are ahead, and they are counted with the passage: what closes a literal is
read with it. So counted, a passage that does not begin with an introducer has at least one byte,
and that is what makes the lexer progress in a literal that comes in segments.

## Main results

* `Style.passage_stop_cases` — a passage stops where its style does, or at the end
* `Style.length_stop_le` — what closes a text lies within the bytes
* `Style.length_stop_pos` — a passage that begins with no introducer has a byte
-/

namespace ScriptLexer

/-- The number of bytes that close a text. -/
def Stop.length : Stop → Nat
  | closed length => length
  | interpolation | endOfInput => 0

/-- An identifier that is found lies within the bytes, and no byte of it is left out. -/
theorem TerminatorLine.read?_bounds {line : TerminatorLine} {rest : List Byte} {n : Nat}
    (h : line.read? rest = some n) : line.identifier.length ≤ n ∧ n ≤ rest.length := by
  simp only [read?] at h
  generalize hindent : (if line.indented then (rest.takeWhile Byte.isBlank).length else 0) = indent
    at h
  have hle : indent ≤ rest.length := by
    rw [← hindent]
    split
    · exact (List.takeWhile_prefix _).length_le
    · exact Nat.zero_le _
  split at h
  · rename_i hfound
    cases h
    cases htail : Line.behind? line.identifier (rest.drop indent) with
    | none =>
      rw [htail] at hfound
      cases hfound
    | some tail =>
      have hlength := congrArg List.length (Line.eq_append_of_behind? htail)
      rw [List.length_drop, List.length_append] at hlength
      omega
  · cases h

namespace Style

/-- Whether what closes the text has a byte. It has one unless the style is that of a heredoc whose
identifier has none. -/
def Closes : Style → Prop
  | verbatim _ | decoded _ => True
  | verbatimLines close | decodedLines close => close.identifier ≠ []

/-- Whether the text is closed by a line. -/
def endsWithLine : Style → Bool
  | verbatim _ | decoded _ => false
  | verbatimLines _ | decodedLines _ => true

variable {style : Style} {lineStart : Bool} {rest : List Byte}

theorem close?_bounds {n : Nat} (h : style.close? lineStart rest = some n) :
    n ≤ rest.length ∧ (style.Closes → 0 < n) := by
  have hline : ∀ close : TerminatorLine, (if lineStart then close.read? rest else none) = some n →
      n ≤ rest.length ∧ (close.identifier ≠ [] → 0 < n) := by
    intro close h
    split at h
    · obtain ⟨hle, hn⟩ := TerminatorLine.read?_bounds h
      exact ⟨hn, fun hne => Nat.lt_of_lt_of_le (List.length_pos_iff.mpr hne) hle⟩
    · cases h
  have hbyte : ∀ close : Byte, (if rest.head? = some close then some 1 else none) = some n →
      n ≤ rest.length ∧ (True → 0 < n) := by
    intro close h
    split at h
    · rename_i hhead
      cases h
      cases rest with
      | nil => cases hhead
      | cons b rest => exact ⟨Nat.le_add_left 1 _, fun _ => Nat.one_pos⟩
    · cases h
  cases style with
  | verbatim close => exact hbyte close h
  | decoded close => exact hbyte close h
  | verbatimLines close => exact hline close h
  | decodedLines close => exact hline close h

/-- **Why a text stops.** It is closed, or it is interrupted by an introducer. -/
theorem stop?_cases {stop : Stop} (h : style.stop? lineStart rest = some stop) :
    (∃ n, stop = .closed n ∧ style.close? lineStart rest = some n)
      ∨ (stop = .interpolation ∧ style.decodes ∧ (Introducer.read? rest).isSome) := by
  rw [stop?] at h
  split at h
  · rename_i n hn
    cases h
    exact .inl ⟨n, rfl, hn⟩
  · split at h
    · rename_i hintroducer
      cases h
      rw [Bool.and_eq_true] at hintroducer
      exact .inr ⟨rfl, hintroducer⟩
    · cases h

/-- **A passage stops where its style does, or at the end of the bytes.** -/
theorem passage_stop_cases (style : Style) (lineStart : Bool) (rest : List Byte) :
    let p := style.passage lineStart rest
    (∃ lineStart', style.stop? lineStart' (rest.drop p.length) = some p.stop)
      ∨ (p.stop = .endOfInput ∧ p.length = rest.length) := by
  induction lineStart, rest using passage_induction style with
  | @stops lineStart rest stop h => exact .inl ⟨lineStart, h⟩
  | ends h => exact .inr ⟨rfl, rfl⟩
  | @step lineStart b rest h ih =>
    have hmore := more_piece_le style b rest
    refine ih.imp ?_ ?_
    · rintro ⟨lineStart', hstop⟩
      refine ⟨lineStart', ?_⟩
      rw [List.drop_drop] at hstop
      rw [Passage.behind, Piece.length, Nat.add_right_comm, List.drop_succ_cons]
      exact hstop
    · rintro ⟨hstop, hlength⟩
      refine ⟨hstop, ?_⟩
      rw [List.length_drop] at hlength
      simp only [Passage.behind, Piece.length, List.length_cons]
      omega

/-- **What closes a text lies within the bytes.** -/
theorem length_stop_le (style : Style) (lineStart : Bool) (rest : List Byte) :
    (style.passage lineStart rest).length + (style.passage lineStart rest).stop.length
      ≤ rest.length := by
  have hlength := length_passage_le style lineStart rest
  rcases passage_stop_cases style lineStart rest with ⟨lineStart', hstop⟩ | ⟨hstop, -⟩
  · rcases stop?_cases hstop with ⟨n, hclosed, hn⟩ | ⟨hinterpolation, -⟩
    · have hle := (close?_bounds hn).1
      rw [List.length_drop] at hle
      rw [hclosed, Stop.length]
      omega
    · rwa [hinterpolation]
  · rwa [hstop]

/-- **A passage that begins with no introducer has a byte,** if what closes it has one. -/
theorem length_stop_pos (lineStart : Bool) (hrest : rest ≠ []) (hcloses : style.Closes)
    (hintroducer : style.decodes → Introducer.read? rest = none) :
    0 < (style.passage lineStart rest).length + (style.passage lineStart rest).stop.length := by
  rcases passage_stop_cases style lineStart rest with ⟨lineStart', hstop⟩ | ⟨hstop, hlength⟩
  · rcases stop?_cases hstop with ⟨n, hclosed, hn⟩ | ⟨-, hdecodes, hsome⟩
    · have hpos := (close?_bounds hn).2 hcloses
      rw [hclosed, Stop.length]
      omega
    · refine Nat.add_pos_left (Nat.pos_of_ne_zero fun hzero => ?_) _
      -- A passage without bytes would stop at the first byte, where no introducer stands.
      rw [hzero, List.drop_zero, hintroducer hdecodes] at hsome
      cases hsome
  · rw [hlength]
    exact Nat.add_pos_left (List.length_pos_iff.mpr hrest) _

end Style

end ScriptLexer
