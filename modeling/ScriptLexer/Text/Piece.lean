import ScriptLexer.Tape.Lemmas

/-!
# Pieces of text

The text of a literal is read in pieces. Most are one byte that stands for itself; an escape is a
piece of several bytes that stands for one byte or for none. A piece never stands for more bytes
than it has, which is what lets a literal be decoded in place.
-/

namespace ScriptLexer

/-- A piece of a literal's text. -/
structure Piece where
  /-- The number of bytes behind the first. -/
  more : Nat
  /-- The byte that the piece stands for, if it stands for one. -/
  value : Option Byte
  /-- What is wrong with the piece. -/
  malformation : Option Malformation
  deriving DecidableEq, Repr

namespace Piece

/-- The number of bytes of a piece, which has at least one. -/
def length (p : Piece) : Nat :=
  p.more + 1

/-- A byte that stands for itself. -/
def plain (b : Byte) : Piece :=
  ⟨0, some b, none⟩

/-- A piece with `more` bytes behind the first that stands for `b`. -/
def coded (more : Nat) (b : Byte) : Piece :=
  ⟨more, some b, none⟩

/-- A piece with `more` bytes behind the first that stands for nothing. -/
def elided (more : Nat) : Piece :=
  ⟨more, none, none⟩

/-- A piece with `more` bytes behind the first that is malformed and stands for nothing. -/
def malformed (more : Nat) (cause : Malformation) : Piece :=
  ⟨more, none, some cause⟩

end Piece

namespace Tape

/-- Reports what is wrong with a piece that begins at the reading offset. -/
def noteIn (p : Piece) (t : Tape) : Tape :=
  match p.malformation with
  | some cause => t.noteAt t.pos cause
  | none => t

/-- Reads a piece and writes the byte it stands for where the text decoded so far ends, which is
`skip` places behind the reading offset. Answers with the tape and the new distance. -/
def write (skip : Nat) (p : Piece) (t : Tape) : Except Misuse (Tape × Nat) :=
  match p.value with
  | some b =>
    match ((t.noteIn p).advanceBy p.more).compact (skip + p.more) b with
    | .ok t' => .ok (t', skip + p.more)
    | .error e => .error e
  | none => .ok ((t.noteIn p).advanceBy p.length, skip + p.length)

@[simp]
theorem rest_noteIn (p : Piece) (t : Tape) : (t.noteIn p).rest = t.rest := by
  rw [noteIn]
  split <;> simp

/-- Writing a piece reads as many bytes as the piece has. -/
theorem rest_write {skip : Nat} {p : Piece} {t : Tape} {r : Tape × Nat}
    (h : t.write skip p = .ok r) : r.1.rest = t.rest.drop p.length := by
  rw [write] at h
  split at h
  · split at h
    · rename_i hc
      cases h
      rw [rest_compact hc]
      simp [Piece.length]
    · cases h
  · cases h
    simp

end Tape

end ScriptLexer
