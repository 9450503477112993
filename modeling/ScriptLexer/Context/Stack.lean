import ScriptLexer.Context.Lookback
import ScriptLexer.Context.Region

/-!
# The stack of open constructs

Constructs nest: a string holds statements in braces, those hold a heredoc, and so on. Every open
construct has a *frame*, which keeps its region and its lookback, so that a suspended construct
resumes with exactly its own terminator and its own past. The lowest frame holds the statements of
the script itself and is never left.

A token may open a construct, close one, or turn one into another. `Stack.commit` does that and
lets the token count for the frame that was on top when it began. If the token closed the
construct of that frame, it counts for the frame that comes to light.
-/

namespace ScriptLexer

/-! ### Frames -/

/-- An open construct. -/
structure Frame where
  region : Region
  lookback : Lookback
  deriving DecidableEq, Repr

namespace Frame

/-- The frame of a construct that has just been opened. -/
def enter (region : Region) : Frame :=
  ⟨region, .fresh⟩

/-- Counts the braces that are open in an interpolation. -/
def countBrace (kind : Kind) : Region → Region
  | .interpolation braces =>
    match kind with
    | .punctuator .leftBrace => .interpolation (braces + 1)
    | .punctuator .rightBrace => .interpolation (braces - 1)
    | _ => .interpolation braces
  | region => region

/-- The frame after a token of a kind has been read in it. -/
def record (kind : Kind) (f : Frame) : Frame :=
  ⟨countBrace kind f.region, f.lookback.after kind⟩

end Frame

/-! ### The stack -/

/-- The open constructs, of which there is always one. -/
structure Stack where
  /-- The innermost construct. -/
  top : Frame
  /-- The constructs around it, from the inside out. -/
  below : List Frame
  deriving DecidableEq, Repr

/-- What a token does to the constructs. -/
inductive Shift where
  | stay
  /-- Opens a construct. -/
  | push (region : Region)
  /-- Closes the innermost construct. -/
  | pop
  /-- Turns the innermost construct into another. -/
  | swap (region : Region)
  deriving DecidableEq, Repr

namespace Stack

/-- The stack of a script of which nothing has been read. -/
def base : Stack :=
  ⟨.enter .statements, []⟩

/-- The number of open constructs, the script itself included. -/
def depth (s : Stack) : Nat :=
  s.below.length + 1

/-- The stack with another lookback for the innermost construct. -/
def withLookback (l : Lookback) (s : Stack) : Stack :=
  { s with top := { s.top with lookback := l } }

/-- The stack after a token of a kind. -/
def commit (shift : Shift) (kind : Kind) (s : Stack) : Stack :=
  match shift with
  | .stay => { s with top := s.top.record kind }
  | .push region => ⟨.enter region, s.top.record kind :: s.below⟩
  | .pop =>
    match s.below with
    | [] => { s with top := s.top.record kind }
    | f :: below => ⟨f.record kind, below⟩
  | .swap region => { s with top := (Frame.enter region).record kind }

end Stack

end ScriptLexer
