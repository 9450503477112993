import ScriptLexer.Byte

/-!
# Reserved words

A name whose whole text is reserved is a keyword. The text that is looked up includes the suffix
of a name, which is how the one reserved word that ends in a question mark is found.
-/

namespace ScriptLexer

/-- A reserved word. -/
inductive Keyword where
  | lineNumber | encodingName | fileName | beginBlock | endBlock | aliasWord | andWord
  | beginWord | breakWord | caseWord | classWord | defWord | isDefined | doWord | elseWord
  | elsifWord | endWord | ensureWord | forWord | falseWord | ifWord | inWord | moduleWord
  | nextWord | nilWord | notWord | orWord | redoWord | rescueWord | retryWord | returnWord
  | selfWord | superWord | thenWord | trueWord | undefWord | unlessWord | untilWord | whenWord
  | whileWord | yieldWord
  deriving DecidableEq, Repr

namespace Keyword

/-- The text of a reserved word. -/
def text : Keyword → String
  | lineNumber => "__LINE__"
  | encodingName => "__ENCODING__"
  | fileName => "__FILE__"
  | beginBlock => "BEGIN"
  | endBlock => "END"
  | aliasWord => "alias"
  | andWord => "and"
  | beginWord => "begin"
  | breakWord => "break"
  | caseWord => "case"
  | classWord => "class"
  | defWord => "def"
  | isDefined => "defined?"
  | doWord => "do"
  | elseWord => "else"
  | elsifWord => "elsif"
  | endWord => "end"
  | ensureWord => "ensure"
  | forWord => "for"
  | falseWord => "false"
  | ifWord => "if"
  | inWord => "in"
  | moduleWord => "module"
  | nextWord => "next"
  | nilWord => "nil"
  | notWord => "not"
  | orWord => "or"
  | redoWord => "redo"
  | rescueWord => "rescue"
  | retryWord => "retry"
  | returnWord => "return"
  | selfWord => "self"
  | superWord => "super"
  | thenWord => "then"
  | trueWord => "true"
  | undefWord => "undef"
  | unlessWord => "unless"
  | untilWord => "until"
  | whenWord => "when"
  | whileWord => "while"
  | yieldWord => "yield"

/-- The bytes of a reserved word. -/
def bytes (k : Keyword) : List Byte :=
  Byte.ofString k.text

/-- The number of a reserved word in the numbering of token kinds. -/
def code : Keyword → Nat
  | lineNumber => 128
  | encodingName => 129
  | fileName => 130
  | beginBlock => 131
  | endBlock => 132
  | aliasWord => 133
  | andWord => 134
  | beginWord => 135
  | breakWord => 136
  | caseWord => 137
  | classWord => 138
  | defWord => 139
  | isDefined => 140
  | doWord => 141
  | elseWord => 142
  | elsifWord => 143
  | endWord => 144
  | ensureWord => 145
  | forWord => 146
  | falseWord => 147
  | ifWord => 148
  | inWord => 149
  | moduleWord => 150
  | nextWord => 151
  | nilWord => 152
  | notWord => 153
  | orWord => 154
  | redoWord => 155
  | rescueWord => 156
  | retryWord => 157
  | returnWord => 158
  | selfWord => 159
  | superWord => 160
  | thenWord => 161
  | trueWord => 162
  | undefWord => 163
  | unlessWord => 164
  | untilWord => 165
  | whenWord => 166
  | whileWord => 167
  | yieldWord => 168

/-- The reserved words of a length, each with its text. Most names are told apart from all of them
by their length and one or two comparisons. -/
def ofLength : (length : Nat) → List (String × Keyword)
  | 2 => [("do", doWord), ("if", ifWord), ("in", inWord), ("or", orWord)]
  | 3 => [("END", endBlock), ("and", andWord), ("def", defWord), ("end", endWord),
      ("for", forWord), ("nil", nilWord), ("not", notWord)]
  | 4 => [("case", caseWord), ("else", elseWord), ("next", nextWord), ("redo", redoWord),
      ("self", selfWord), ("then", thenWord), ("true", trueWord), ("when", whenWord)]
  | 5 => [("BEGIN", beginBlock), ("alias", aliasWord), ("begin", beginWord),
      ("break", breakWord), ("class", classWord), ("elsif", elsifWord), ("false", falseWord),
      ("retry", retryWord), ("super", superWord), ("undef", undefWord), ("until", untilWord),
      ("while", whileWord), ("yield", yieldWord)]
  | 6 => [("ensure", ensureWord), ("module", moduleWord), ("rescue", rescueWord),
      ("return", returnWord), ("unless", unlessWord)]
  | 8 => [("__FILE__", fileName), ("__LINE__", lineNumber), ("defined?", isDefined)]
  | 12 => [("__ENCODING__", encodingName)]
  | _ => []

/-- The reserved word whose text is `name`. -/
def ofBytes? (name : List Byte) : Option Keyword :=
  ((ofLength name.length).find? fun entry => Byte.ofString entry.1 == name).map (·.2)

end Keyword

end ScriptLexer
