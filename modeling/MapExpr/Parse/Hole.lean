import MapExpr.Parse.Chain

/-!
# Holes

A reader that is inside brackets knows what it has read before them: the place of the expression
that it reads is a hole in that, and the hole knows the one around it.

* `ExprHole`, `SelectorHole`: the places of an expression and of a selector;
* `ExprHole.depth`, `SelectorHole.depth`: how deeply a place is nested. A filter counts four times.
-/

namespace MapExpr.Parse

/-- The front of a selector: the steps that are complete, newest first. -/
structure Path where
  absolute : Bool
  before : List Step

namespace Path

def push (p : Path) (s : Step) : Path :=
  { p with before := s :: p.before }

def toSelector (p : Path) : Selector :=
  .steps p.absolute p.before.reverse

end Path

/-- The front of a named step: all but its predicate. -/
structure StepHead where
  isAttribute : Bool
  name : QName

namespace StepHead

def toStep (h : StepHead) (p : Predicate) : Step :=
  .named h.isAttribute h.name p

end StepHead

mutual

/-- The place of an expression. -/
inductive ExprHole
  | root
  /-- In parentheses, as an operand after `chain`. -/
  | group (chain : Chain) (outer : ExprHole)
  /-- An argument, after the arguments `before` (newest first) of a call. -/
  | argument (withDollar : Bool) (name : String) (before : List Expr) (chain : Chain)
      (outer : ExprHole)
  /-- In the brackets of a step, after the steps of `path`. -/
  | filter (head : StepHead) (path : Path) (outer : SelectorHole)

/-- The place of a selector. -/
inductive SelectorHole
  /-- An operand after `chain`, perhaps the first member of a union. -/
  | operand (chain : Chain) (outer : ExprHole)
  /-- A member of a union, after the members `before`, newest first. -/
  | member (before : List Selector) (outer : ExprHole)
  /-- In the parentheses of a scoped selector. -/
  | scoped (outer : SelectorHole)

end

/-- The nesting that a filter counts for. -/
def filterCost : Nat := 4

mutual

def ExprHole.depth : ExprHole → Nat
  | .root => 1
  | .group _ outer => outer.depth + 1
  | .argument _ _ _ _ outer => outer.depth + 1
  | .filter _ _ outer => outer.depth + filterCost

def SelectorHole.depth : SelectorHole → Nat
  | .operand _ outer => outer.depth
  | .member _ outer => outer.depth
  | .scoped outer => outer.depth + 1

end

end MapExpr.Parse
