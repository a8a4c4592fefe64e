import MapExpr.Parse.Basic

/-!
# Logs

What a parse reports on the way. A scanned text has a line for its tokens and one for each operator
node, and every text has a last line for the result.

* `log`: the lines of a parse.
-/

namespace MapExpr

/-- How much a log line matters. -/
inductive LogLevel
  | trace
  | debug
deriving DecidableEq, Repr

structure LogLine where
  level : LogLevel
  message : String
deriving DecidableEq, Repr

namespace LogLine

def scanned (text : String) (tokens : List Token) : LogLine :=
  ⟨.trace, "scanned " ++ toString tokens.length ++ " tokens from "
    ++ toString text.utf8ByteSize ++ " bytes"⟩

def event (e : Parse.Event) : LogLine :=
  ⟨.trace, e.message⟩

/-- The last line of a parse. -/
def result (text : String) : Except ParseError Parsed → LogLine
  | .ok parsed => ⟨.debug, "parsed " ++ parsed.root.kindName ++ " over "
    ++ toString text.utf8ByteSize ++ " bytes"⟩
  | .error e => ⟨.debug, "failed to parse '" ++ text ++ "': " ++ e.message⟩

end LogLine

/-- The lines that a parse of `text` reports, in order. -/
def log (settings : Settings) (text : String) : List LogLine :=
  match Token.scan text with
  | .error e => [.result text (.error e)]
  | .ok tokens =>
    let run := Parse.ofTokens settings tokens
    .scanned text tokens :: run.events.map .event ++ [.result text run.value]

end MapExpr
