import ScriptLexer.Byte

/-!
# Ends of lines and words

Three markers are recognised by the line they stand on: the words that open and close a block
comment, the terminator of a heredoc, and the end marker of a script. What may follow a marker is
decided here. All tests are on the bytes behind the marker.
-/

namespace ScriptLexer.Line

/-- Whether a line ends here: at the end of the script, a line feed, or a carriage return and line
feed. -/
def endsHere : List Byte → Bool
  | [] => true
  | 0x0A :: _ => true
  | 0x0D :: 0x0A :: _ => true
  | _ => false

/-- Whether a word ends here: at the end of the script, a line feed, or a blank. -/
def endsWord : List Byte → Bool
  | [] => true
  | b :: _ => b == Byte.newline || Byte.isBlank b

/-- The bytes behind `marker`, if the bytes begin with it. -/
def behind? : (marker : List Byte) → List Byte → Option (List Byte)
  | [], rest => some rest
  | m :: marker, b :: rest => if m == b then behind? marker rest else none
  | _ :: _, [] => none

/-- Whether the bytes begin with `word` as a word of its own. -/
def hasWord (word rest : List Byte) : Bool :=
  (behind? word rest).any endsWord

/-- The number of bytes up to the next line feed, or to the end. -/
def length (rest : List Byte) : Nat :=
  (rest.takeWhile (· != Byte.newline)).length

/-- The number of bytes of a line and of the line feed that ends it, if one does. -/
def lengthWithEnd (rest : List Byte) : Nat :=
  min (length rest + 1) rest.length

/-- The text of the marker that ends the script. -/
def endMarker : List Byte :=
  Byte.ofString "__END__"

/-- Whether the end marker stands here, alone on its line. -/
def isEndMarker (rest : List Byte) : Bool :=
  (behind? endMarker rest).any endsHere

end ScriptLexer.Line
