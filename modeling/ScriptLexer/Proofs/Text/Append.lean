import ScriptLexer.Proofs.Lexeme.SameLine
import ScriptLexer.Proofs.Text.Stop

/-!
# Text that goes on

Text runs over many lines, but what is read at a byte of it is decided by the line: an escape ends
with its line at the latest, and so does what closes the text or interrupts it. So a passage that is
not cut off by the end of the script is the same if the script goes on behind the end of a line.

## Main results

* `Style.passage_append` — a passage that is not cut off does not depend on what follows
-/

namespace ScriptLexer

variable {x y : List Byte}

namespace Escape

theorem octal_congr (h : SameLine x y) : octal x = octal y := by
  rw [octal, octal, h.takeWhile_take (by decide)]

theorem hexadecimal_congr (h : SameLine x y) : hexadecimal x = hexadecimal y := by
  cases h with
  | nil | lineFeed _ _ => rfl
  | cons b h => rw [hexadecimal, hexadecimal, h.head?]

theorem controlled_congr (more : Nat) (h : SameLine x y) :
    controlled more x = controlled more y := by
  cases h <;> rfl

theorem longControl_congr (h : SameLine x y) : longControl x = longControl y := by
  cases h with
  | nil | lineFeed _ _ => rfl
  | cons b h =>
    by_cases hb : b = 0x2D
    · subst hb
      exact controlled_congr 2 h
    · simp [longControl, hb]

/-- An escape ends with its line at the latest. -/
theorem read_congr (h : SameLine x y) : read x = read y := by
  cases h with
  | nil | lineFeed _ _ => rfl
  | cons b h =>
    rw [read, read, octal_congr (h.cons b), hexadecimal_congr h, longControl_congr h,
      controlled_congr 1 h]

end Escape

namespace Style

variable {style : Style} {lineStart : Bool}

/-- The identifier that closes the text has no line feed. -/
def InLine : Style → Prop
  | verbatim _ | decoded _ => True
  | verbatimLines close | decodedLines close => Byte.newline ∉ close.identifier

theorem piece_congr (style : Style) {b : Byte} (h : SameLine (b :: x) (b :: y)) :
    style.piece b x = style.piece b y := by
  by_cases hb : b = Byte.newline
  · subst hb
    cases style with
    | verbatim close =>
      have hplain : ∀ z, shielded close Byte.newline z = .plain Byte.newline := fun z => by
        cases z <;> rfl
      rw [piece, piece, hplain, hplain]
    | decoded close | verbatimLines close | decodedLines close => rfl
  · have hrest := h.of_cons hb
    cases style with
    | verbatim close =>
      rw [piece, piece]
      cases hrest <;> rfl
    | verbatimLines close => rfl
    | decoded close | decodedLines close => rw [piece, piece, Escape.read_congr hrest]

theorem stop?_congr (hstyle : style.InLine) (h : SameLine x y) :
    style.stop? lineStart x = style.stop? lineStart y := by
  have hclose : style.close? lineStart x = style.close? lineStart y := by
    cases style with
    | verbatim close | decoded close => rw [close?, close?, h.head?]
    | verbatimLines close | decodedLines close =>
      rw [close?, close?, TerminatorLine.read?_congr hstyle h]
  rw [stop?, stop?, hclose, Introducer.read?_congr h.sameWord]

theorem stop?_nil (hcloses : style.Closes) : style.stop? lineStart [] = none := by
  cases hstop : style.stop? lineStart [] with
  | none => rfl
  | some stop =>
    rcases stop?_cases hstop with ⟨n, -, hn⟩ | ⟨-, -, hsome⟩
    · obtain ⟨hle, hpos⟩ := close?_bounds hn
      exact absurd (hpos hcloses) (Nat.not_lt.mpr hle)
    · cases hsome

/-- **A text that is not cut off goes on as it did,** if the script goes on behind the end of a
line. -/
theorem passage_append (hcloses : style.Closes) (hstyle : style.InLine) {rest : List Byte}
    (hrest : Line.startsBehind rest) (hstop : (style.passage lineStart rest).stop ≠ .endOfInput)
    (back : List Byte) : style.passage lineStart (rest ++ back) = style.passage lineStart rest := by
  induction lineStart, rest using passage_induction style with
  | @stops lineStart rest stop h =>
    have hne : rest ≠ [] := by
      rintro rfl
      rw [stop?_nil hcloses] at h
      cases h
    rw [stop?_congr hstyle (.append hne hrest back)] at h
    exact passage_of_stop h
  | ends h => exact absurd rfl hstop
  | @step lineStart b rest h ih =>
    have hline : SameLine (b :: rest) (b :: (rest ++ back)) :=
      .append (List.cons_ne_nil b rest) hrest back
    have hbehind : Line.startsBehind (rest.drop (style.piece b rest).more) :=
      Line.startsBehind_drop hrest ((style.piece b rest).more + 1)
    rw [stop?_congr hstyle hline] at h
    rw [List.cons_append, passage_cons h, ← piece_congr style hline,
      List.drop_append_of_le_length (more_piece_le style b rest), ih hbehind hstop]

end Style

end ScriptLexer
