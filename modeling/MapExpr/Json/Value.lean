import MapExpr.Json.Token

/-!
# JSON values

* `Json.ofTokens?`: the value that a list of tokens is, read from left to right with the arrays and
  objects around the present place on a stack;
* `Json.ofText?`: the value that a text is.
-/

namespace MapExpr

/-- A JSON value; strings and keys as they were escaped, members in order. -/
inductive Json
  | scalar (text : List Char)
  | string (units : List Json.TextUnit)
  | array (elements : List Json)
  | object (members : List (List Json.TextUnit × Json))

namespace Json

/-- An array or object that is still open, with what is complete of it, newest first. -/
inductive Frame
  | elements (before : List Json)
  | member (before : List (List TextUnit × Json)) (key : List TextUnit)

/-- What is due, or what has just been read, inside the open frames, innermost first. -/
inductive State
  | valueDue (outer : List Frame)
  /-- After an opening bracket. -/
  | arrayOpened (outer : List Frame)
  /-- After an opening brace. -/
  | objectOpened (outer : List Frame)
  | keyDue (before : List (List TextUnit × Json)) (outer : List Frame)
  | colonDue (before : List (List TextUnit × Json)) (key : List TextUnit) (outer : List Frame)
  | valueDone (v : Json) (outer : List Frame)

/-- The token `t` stands where a value is due. -/
def beginValue (outer : List Frame) : Token → Option State
  | .scalar text => some (.valueDone (.scalar text) outer)
  | .string units => some (.valueDone (.string units) outer)
  | .openBracket => some (.arrayOpened outer)
  | .openBrace => some (.objectOpened outer)
  | _ => none

/-- What a token does. -/
def State.step : State → Token → Option State
  | .valueDue outer, t => beginValue outer t
  | .arrayOpened outer, .closeBracket => some (.valueDone (.array []) outer)
  | .arrayOpened outer, t => beginValue (.elements [] :: outer) t
  | .objectOpened outer, .closeBrace => some (.valueDone (.object []) outer)
  | .objectOpened outer, .string key => some (.colonDue [] key outer)
  | .keyDue before outer, .string key => some (.colonDue before key outer)
  | .colonDue before key outer, .colon => some (.valueDue (.member before key :: outer))
  | .valueDone v (.elements before :: outer), .comma =>
    some (.valueDue (.elements (v :: before) :: outer))
  | .valueDone v (.elements before :: outer), .closeBracket =>
    some (.valueDone (.array (v :: before).reverse) outer)
  | .valueDone v (.member before key :: outer), .comma =>
    some (.keyDue ((key, v) :: before) outer)
  | .valueDone v (.member before key :: outer), .closeBrace =>
    some (.valueDone (.object ((key, v) :: before).reverse) outer)
  | _, _ => none

/-- The value that `tokens` are. -/
def ofTokens? (tokens : List Token) : Option Json :=
  match tokens.foldlM State.step (.valueDue []) with
  | some (.valueDone v []) => some v
  | _ => none

/-- The value that a text is. -/
def ofText? (text : String) : Option Json := do
  ofTokens? (← Token.ofText? text)

end Json

end MapExpr
