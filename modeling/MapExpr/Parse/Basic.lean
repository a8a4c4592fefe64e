import MapExpr.Parse.Read
import MapExpr.Settings
import MapExpr.Token.Stream

/-!
# Parsing

* `Parse.ofTokens`: the expression that a list of tokens is, with the events of its reading;
* `parse`: the expression that a text is, or its first fault.
-/

namespace MapExpr

namespace Parse

/-- The state before the first token. -/
def start : State :=
  .expressionDue .root

/-- The expression that has been read, if the text is complete. -/
def State.parsed? : State → Option Parsed
  | accepted parsed => some parsed
  | _ => none

/-- Reads the tokens of a text with their end marker. A list without one is never complete. -/
def ofTokens (settings : Settings) (tokens : List Token) : Traced (Except ParseError Parsed) := do
  match ← read settings.maxDepth start tokens with
  | .error e => pure (.error e)
  | .ok s =>
    match s.parsed? with
    | some parsed => pure (.ok parsed)
    | none => pure (.error (Expectation.expression.butFound (.eof 0)))

end Parse

/-- Parses a text. -/
def parse (settings : Settings) (text : String) : Except ParseError Parsed := do
  (Parse.ofTokens settings (← Token.scan text)).value

end MapExpr
