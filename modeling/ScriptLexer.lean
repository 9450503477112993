import ScriptLexer.Lexed
import ScriptLexer.Proofs.Tape.Overwrite
import ScriptLexer.Proofs.Text.Passage
import ScriptLexer.Proofs.Text.Reference
import ScriptLexer.Proofs.Lexeme.Extent
import ScriptLexer.Proofs.Tape.Onward
import ScriptLexer.Proofs.Tape.Calls
import ScriptLexer.Proofs.Lexeme.Layout
import ScriptLexer.Proofs.Text.Stop
import ScriptLexer.Proofs.Lexer.Reading
import ScriptLexer.Proofs.Lexer.Settle
import ScriptLexer.Proofs.Lexer.Step
import ScriptLexer.Proofs.Lexer.Calls
import ScriptLexer.Proofs.Lexer.Literals
import ScriptLexer.Proofs.Lexer.Tiling
import ScriptLexer.Proofs.Lexer.Segment
import ScriptLexer.Proofs.Lexer.Effect
import ScriptLexer.Proofs.Lexeme.Form
import ScriptLexer.Proofs.Lexeme.Kinds
import ScriptLexer.Proofs.Lexer.Nesting
import ScriptLexer.Proofs.Lexer.Braces
import ScriptLexer.Proofs.Lexeme.SameWord
import ScriptLexer.Proofs.Lexeme.SameLine
import ScriptLexer.Proofs.Tape.Within
import ScriptLexer.Proofs.Text.Append
import ScriptLexer.Proofs.Text.Lines
import ScriptLexer.Proofs.Lexer.Identifier
import ScriptLexer.Proofs.Lexer.Shape
import ScriptLexer.Proofs.Lexer.Within
import ScriptLexer.Proofs.Lexer.Append
import ScriptLexer.Proofs.Lexer.End
import ScriptLexer.Proofs.Lexer.Faces
import ScriptLexer.Proofs.Lexer.Outlook
import ScriptLexer.Proofs.Lexer.Answers
import ScriptLexer.Proofs.Lexer.Spelling
import ScriptLexer.Proofs.Lexer.Findings
import ScriptLexer.Proofs.Lexeme.Spacing
import ScriptLexer.Proofs.Text.Spacing
import ScriptLexer.Proofs.Lexer.Beside
import ScriptLexer.Proofs.Lexer.Spacing
import ScriptLexer.Proofs.Lexeme.LineEnd
import ScriptLexer.Proofs.Lexeme.Numeral
import ScriptLexer.Proofs.Text.LineEnd
import ScriptLexer.Proofs.Lexer.LineEnd
import ScriptLexer.Proofs.Lexer.Heredocs
import ScriptLexer.Proofs.Text.Verbatim
import ScriptLexer.Proofs.Text.Encoding
import ScriptLexer.Proofs.Lexer.Quoting
import ScriptLexer.Proofs.Text.Body
import ScriptLexer.Proofs.Lexer.Terminator
import ScriptLexer.Proofs.Lexer.LineStart
import ScriptLexer.Proofs.Lexer.Sightings
import ScriptLexer.Proofs.Lexer.Statement
import ScriptLexer.Proofs.Lexer.Sign
import ScriptLexer.Proofs.Lexer.Percent
import ScriptLexer.Proofs.Lexer.Setter
import ScriptLexer.Proofs.Lexer.Scanning
import ScriptLexer.Proofs.Lexer.Name
import ScriptLexer.Proofs.Lexer.BlockComment
import ScriptLexer.Proofs.Lexer.LayoutOnly
import ScriptLexer.Proofs.Lexeme.Operator
import ScriptLexer.Proofs.Lexer.Detour
import ScriptLexer.Proofs.Lexer.Operator
import ScriptLexer.Proofs.Lexer.Numeral
import ScriptLexer.Proofs.Lexer.Expression
import ScriptLexer.Proofs.Lexer.Report
import ScriptLexer.Proofs.Word.Basic
import ScriptLexer.Proofs.Word.Tape
import ScriptLexer.Proofs.Word.FlatTape
import ScriptLexer.Proofs.Word.Escape
import ScriptLexer.Proofs.Word.Text
import ScriptLexer.Proofs.Word.Reading
import ScriptLexer.Proofs.Word.Next
import ScriptLexer.Proofs.Word.Session
