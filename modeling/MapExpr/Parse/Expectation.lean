import MapExpr.ParseError
import MapExpr.Token.Basic

/-!
# Expectations

What the grammar allows at a token that it does not allow.
-/

namespace MapExpr.Parse

/-- What may stand where the fault is. -/
inductive Expectation
  | endOfInput
  | expression
  /-- After the dollar of a variable, a call or a scoped selector. -/
  | variableName
  /-- After the dollar of a selector. -/
  | openingParen
  | closingParen
  | nextArgument
  | step
  | nodeName
  | closingBracket
  | numericIndex
  | integerIndex
  | oneComparison
  | number
deriving DecidableEq, Repr

namespace Expectation

def text : Expectation → String
  | endOfInput => "end of input"
  | expression => "an expression"
  | variableName => "a variable name or '('"
  | openingParen => "'('"
  | closingParen => "')'"
  | nextArgument => "',' or ')'"
  | step => "a selector step"
  | nodeName => "a node name or '*'"
  | closingBracket => "']'"
  | numericIndex => "a numeric index"
  | integerIndex => "an integer index"
  | oneComparison => "a single comparison (comparisons do not chain)"
  | number => "a number"

/-- The fault of finding `t` instead. -/
def butFound (e : Expectation) (t : Token) : ParseError :=
  .unexpectedToken t.start e.text t.describe

end Expectation

end MapExpr.Parse
