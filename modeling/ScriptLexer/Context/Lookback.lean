import ScriptLexer.Token.Kind

/-!
# Lookback

A few bytes are read differently after different tokens: a sign may belong to the number behind
it, a percent sign may open a literal, an equals sign may end a name. What has to be known about
the tokens already read in a construct is kept here, and it is little: the last token's kind,
whether it touches what comes next, and whether a method is being defined.
-/

namespace ScriptLexer

/-- What the tokens already read in a construct leave to be known. -/
structure Lookback where
  /-- The kind of the last token, or that of a line end if there was none. -/
  previous : Kind
  /-- Whether the last token touches the next one. -/
  abuts : Bool
  /-- Whether the next name is that of a method being defined. -/
  defining : Bool
  deriving DecidableEq, Repr

namespace Lookback

/-- The lookback of a construct in which nothing has been read. -/
def fresh : Lookback :=
  ⟨.newLine, false, false⟩

/-- Whether the next name is that of a method being defined, after a token of a kind. The word
that begins a definition makes it so, and the receiver of the method and its dot keep it so. -/
def definingAfter (kind : Kind) (defining : Bool) : Bool :=
  match kind with
  | .keyword .defWord => true
  | .keyword .selfWord | .punctuator .dot | .constant => defining
  | _ => false

/-- The lookback after a token of a kind. Nothing touches the end of a line. -/
def after (kind : Kind) (l : Lookback) : Lookback :=
  ⟨kind, kind != .newLine, definingAfter kind l.defining⟩

/-- The lookback after a piece of layout that separates tokens, or one that does not. -/
def afterGap (separates : Bool) (l : Lookback) : Lookback :=
  { l with abuts := l.abuts && !separates }

/-- Whether an operand rather than a binary operator is expected next. That is so after a token
that ends no value, and after a bare name that stands apart: it may be a call, and what follows
its argument. -/
def expectsOperand (l : Lookback) : Bool :=
  !l.previous.endsValue || (l.previous == .localVariable && !l.abuts)

end Lookback

end ScriptLexer
