import MapExpr.Parse.Expectation
import MapExpr.Parse.Hole

/-!
# Reader states

What a reader of an expression knows between two tokens: what is due, or what has just been read,
and the place that it stands in. A decision that hangs on a later token is left open in the state.
After a name, for instance, an opening parenthesis makes it a call, a colon makes it a qualifier,
and any other token makes it a step.

* `State`: the states;
* `Outcome`: the state after a token, or the fault of that token, with the events on the way.
-/

namespace MapExpr.Parse

/-- What is due, or what has just been read, with the place that it stands in. -/
inductive State
  /-- An expression is due, which may be nested too deeply. -/
  | expressionDue (hole : ExprHole)
  /-- An operand is due. -/
  | operandDue (chain : Chain) (hole : ExprHole)
  /-- A dollar stands where an operand is due. -/
  | dollar (chain : Chain) (hole : ExprHole)
  /-- A dollar and a name: a variable, or a call. -/
  | dollarName (name : String) (chain : Chain) (hole : ExprHole)
  /-- A name stands where an operand is due: a call, or a selector. -/
  | leadingName (name : String) (chain : Chain) (hole : ExprHole)
  /-- The parenthesis of a call is open. -/
  | callOpened (withDollar : Bool) (name : String) (chain : Chain) (hole : ExprHole)
  /-- An operand is complete. -/
  | operandDone (e : Expr) (chain : Chain) (hole : ExprHole)
  /-- A scoped selector is due, which may be nested too deeply. -/
  | scopedDue (hole : SelectorHole)
  /-- A selector is due. -/
  | selectorDue (hole : SelectorHole)
  /-- A dollar stands where a selector is due. -/
  | selectorDollar (hole : SelectorHole)
  /-- A selector is complete. -/
  | selectorDone (s : Selector) (hole : SelectorHole)
  /-- A step is due. -/
  | stepDue (path : Path) (hole : SelectorHole)
  /-- The name of an attribute is due. -/
  | nodeNameDue (path : Path) (hole : SelectorHole)
  /-- A name that may be a qualifier. -/
  | firstName (isAttribute : Bool) (name : String) (path : Path) (hole : SelectorHole)
  /-- The name after a qualifier is due. -/
  | localNameDue (isAttribute : Bool) (qualifier : String) (path : Path) (hole : SelectorHole)
  /-- A named step is complete but for its predicate. -/
  | stepName (head : StepHead) (path : Path) (hole : SelectorHole)
  /-- The first bracket of a step is open. -/
  | bracket (head : StepHead) (path : Path) (hole : SelectorHole)
  /-- A number without a point stands first in the bracket: an index, or an operand. -/
  | bracketNumber (number : Token) (head : StepHead) (path : Path) (hole : SelectorHole)
  /-- The first bracket holds an index. -/
  | indexed (i : Index) (head : StepHead) (path : Path) (hole : SelectorHole)
  /-- The first bracket holds a filter. -/
  | filtered (f : Filter) (head : StepHead) (path : Path) (hole : SelectorHole)
  /-- The second bracket is open. -/
  | secondBracket (f : Filter) (head : StepHead) (path : Path) (hole : SelectorHole)
  /-- The second bracket holds an index and is still open. -/
  | secondIndex (f : Filter) (i : Index) (head : StepHead) (path : Path) (hole : SelectorHole)
  /-- A step is complete. -/
  | stepDone (path : Path) (hole : SelectorHole)
  /-- The text is complete. -/
  | accepted (parsed : Parsed)

/-- The state after a token, or the fault of that token. -/
abbrev Outcome := Traced (Except ParseError State)

namespace Outcome

/-- The token is taken. -/
def go (s : State) : Outcome :=
  pure (.ok s)

/-- The token is not what is due. -/
def refuse (e : Expectation) (t : Token) : Outcome :=
  pure (.error (e.butFound t))

/-- Goes on if the place that the token `t` begins is no deeper than `limit`. -/
def within (limit depth : Nat) (t : Token) (rest : Outcome) : Outcome :=
  if limit < depth then pure (.error (.depthExceeded t.start limit)) else rest

end Outcome

end MapExpr.Parse
