import ScriptLexer.Text.Style

/-!
# Decoding text in place

`Tape.transcribe` reads the text of a literal to where it stops, and writes every byte as soon as
its piece is read. The decoded text then lies at the front of what was read, and the distance
between its end and the reading offset is the number of bytes that decoding elided.
-/

namespace ScriptLexer

/-- What reading the text of a literal leaves behind. -/
structure Transcript where
  /-- The tape, at the place where the text stops. -/
  tape : Tape
  /-- The number of bytes between the end of the decoded text and that place. -/
  skip : Nat
  stop : Stop
  deriving DecidableEq, Repr

namespace Tape

theorem length_rest_write {skip : Nat} {p : Piece} {t : Tape} {b : Byte} {rest : List Byte}
    {r : Tape × Nat} (hr : t.rest = b :: rest) (h : t.write skip p = .ok r) :
    r.1.rest.length < t.rest.length := by
  rw [rest_write h, List.length_drop, hr, Piece.length]
  simp only [List.length_cons]
  omega

/-- Decodes text in place until it stops. `lineStart` tells whether a line of the text begins at
the reading offset, and `skip` how many bytes have been elided already. -/
def transcribe (style : Style) (lineStart : Bool) (skip : Nat) (t : Tape) :
    Except Misuse Transcript :=
  match style.stop? lineStart t.rest with
  | some stop => .ok ⟨t, skip, stop⟩
  | none =>
    match _hr : t.rest with
    | [] => .ok ⟨t, skip, .endOfInput⟩
    | b :: rest =>
      match _h : t.write skip (style.piece b rest) with
      | .error e => .error e
      | .ok (t', skip') => transcribe style (b == Byte.newline) skip' t'
termination_by t.rest.length
decreasing_by exact length_rest_write (by assumption) (by assumption)

end Tape

end ScriptLexer
