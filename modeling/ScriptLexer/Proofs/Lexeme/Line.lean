import ScriptLexer.Lexeme.Line
import Mathlib.Data.List.TakeWhile

/-!
# Lines and markers

The tests for markers look at the bytes behind a marker, one byte after another. Here they are said
of lines: a marker that is found begins the bytes, and whether a line begins with a word depends on
the bytes up to its line feed only.

## Main definitions

* `Line.StartsWord`, `Line.WordAt` — bytes, and lines, that begin with a word
* `Line.EndsAt` — where a line ends

## Main results

* `Line.eq_append_of_behind?` — a marker that is found begins the bytes
* `Line.hasWord_iff` — a word is found where the bytes begin with it
* `Line.hasWord_line` — words are words of a line
* `Line.exists_line` — a script begins with a line
-/

namespace ScriptLexer.Line

/-! ### Starts of lines -/

/-- Whether a line begins behind these bytes: at the start of the script, and behind a line feed. -/
def startsBehind (before : List Byte) : Bool :=
  before.getLast?.all (· == Byte.newline)

/-! ### Markers -/

/-- **A marker that is found begins the bytes.** -/
theorem eq_append_of_behind? {marker rest tail : List Byte} (h : behind? marker rest = some tail) :
    rest = marker ++ tail := by
  induction marker generalizing rest with
  | nil =>
    rw [behind?] at h
    exact Option.some.inj h
  | cons m marker ih =>
    cases rest with
    | nil => cases h
    | cons b rest =>
      rw [behind?] at h
      split at h
      · rename_i hm
        rw [eq_of_beq hm, ih h, List.cons_append]
      · cases h

/-- What stands behind a marker that the bytes begin with is found. -/
theorem behind?_append (marker tail : List Byte) :
    behind? marker (marker ++ tail) = some tail := by
  induction marker with
  | nil => rfl
  | cons m marker ih => simpa [behind?] using ih

/-- A marker that begins with another byte is not found. -/
theorem behind?_of_ne {m b : Byte} (h : b ≠ m) (marker rest : List Byte) :
    behind? (m :: marker) (b :: rest) = none := by
  rw [behind?, if_neg]
  rw [beq_iff_eq]
  exact Ne.symm h

/-! ### Words -/

/-- The bytes begin with a word, which ends in front of a blank or a line feed, or with them. -/
def StartsWord (word bytes : List Byte) : Prop :=
  ∃ behind, bytes = word ++ behind ∧ ∀ b ∈ behind.head?, b = Byte.newline ∨ b.isBlank

theorem endsWord_iff (behind : List Byte) :
    endsWord behind ↔ ∀ b ∈ behind.head?, b = Byte.newline ∨ b.isBlank := by
  cases behind with
  | nil => simp [endsWord]
  | cons b rest => simp [endsWord]

/-- **A word is found where the bytes begin with it.** -/
theorem hasWord_iff (word bytes : List Byte) : hasWord word bytes ↔ StartsWord word bytes := by
  rw [hasWord, Option.any_eq_true]
  constructor
  · rintro ⟨behind, hbehind, hends⟩
    exact ⟨behind, eq_append_of_behind? hbehind, (endsWord_iff behind).mp hends⟩
  · rintro ⟨behind, rfl, hends⟩
    exact ⟨behind, behind?_append word behind, (endsWord_iff behind).mpr hends⟩

/-- A line of a script begins at offset `p`, and begins with a word. -/
def WordAt (word source : List Byte) (p : Nat) : Prop :=
  startsBehind (source.take p) ∧ StartsWord word (source.drop p)

/-! ### Lines -/

/-- The bytes up to a line feed tell whether a line begins with a word. -/
theorem hasWord_line {word : List Byte} (hword : Byte.newline ∉ word) (line behind : List Byte) :
    hasWord word (line ++ Byte.newline :: behind) = hasWord word line := by
  induction word generalizing line with
  | nil => cases line <;> rfl
  | cons m word ih =>
    rw [List.mem_cons, not_or] at hword
    cases line with
    | nil =>
      rw [List.nil_append, hasWord, behind?_of_ne hword.1]
      rfl
    | cons b line =>
      have htail := ih hword.2 line
      rw [hasWord, hasWord] at htail
      rw [hasWord, hasWord, List.cons_append, behind?, behind?]
      split
      · exact htail
      · rfl

/-- The bytes of a line, and the line feed behind them if the script goes on. -/
theorem exists_line (rest : List Byte) :
    ∃ line, Byte.newline ∉ line ∧ line.length = length rest
      ∧ (rest = line ∨ ∃ behind, rest = line ++ Byte.newline :: behind) := by
  refine ⟨rest.takeWhile (· != Byte.newline), fun hmem => ?_, rfl, ?_⟩
  · simpa using List.mem_takeWhile_imp hmem
  · induction rest with
    | nil => exact .inl rfl
    | cons b rest ih =>
      by_cases hb : b = Byte.newline
      · exact .inr ⟨rest, by simp [hb]⟩
      · rw [List.takeWhile_cons_of_pos (by simpa using hb)]
        refine ih.imp (fun h => ?_) ?_
        · rw [← h]
        · rintro ⟨behind, h⟩
          exact ⟨behind, by rw [List.cons_append, ← h]⟩

/-- A line that another one follows is as long as its bytes and its line feed. -/
theorem lengthWithEnd_line {line : List Byte} (hline : Byte.newline ∉ line)
    (behind : List Byte) :
    lengthWithEnd (line ++ Byte.newline :: behind) = line.length + 1 := by
  have hall : ∀ b ∈ line, (b != Byte.newline) = true := by
    intro b hb
    exact bne_iff_ne.mpr fun h => hline (h ▸ hb)
  have hlength : length (line ++ Byte.newline :: behind) = line.length := by
    rw [length, List.takeWhile_append_of_pos hall, List.takeWhile_cons_of_neg (by simp),
      List.append_nil]
  rw [lengthWithEnd, hlength, List.length_append, List.length_cons]
  omega

/-- The line that begins at offset `p` of a script, with the line feed that ends it, goes on up to
offset `r`; the last line may have none. -/
def EndsAt (source : List Byte) (p r : Nat) : Prop :=
  ∃ line, Byte.newline ∉ line
    ∧ (source.drop p = line ∧ r = source.length
      ∨ ∃ behind, source.drop p = line ++ Byte.newline :: behind ∧ r = p + line.length + 1)

theorem endsAt_lengthWithEnd {source : List Byte} {p : Nat} (hp : p ≤ source.length) :
    EndsAt source p (p + lengthWithEnd (source.drop p)) := by
  have hlength : (source.drop p).length = source.length - p := List.length_drop
  obtain ⟨line, hline, hsize, hlast | ⟨behind, hmore⟩⟩ := exists_line (source.drop p)
  · refine ⟨line, hline, .inl ⟨hlast, ?_⟩⟩
    rw [lengthWithEnd, ← hsize, ← hlast]
    omega
  · refine ⟨line, hline, .inr ⟨behind, hmore, ?_⟩⟩
    have hshort : line.length + 1 ≤ (source.drop p).length := by
      rw [hmore, List.length_append, List.length_cons]
      omega
    rw [lengthWithEnd, ← hsize, Nat.min_eq_left hshort, Nat.add_assoc]

end ScriptLexer.Line
