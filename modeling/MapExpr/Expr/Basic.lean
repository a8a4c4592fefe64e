import MapExpr.Number.Binary64
import MapExpr.Span

/-!
# Expressions

The tree of a map expression. Operators of one level form one node with all their operands, so
the precedence levels are the node kinds: `or`, `and`, comparison, additive and multiplicative
chains, and the primaries below them. A union of selectors is a whole expression.

A filter keeps calls and bare selectors apart from all other bodies.
-/

namespace MapExpr

/-- The position of a node among its siblings, from one; negative ones count from the end. -/
abbrev Index := Int64

inductive RelationalOp
  | less | greater | lessEqual | greaterEqual | equal | notEqual
deriving DecidableEq, Repr

inductive AdditiveOp
  | plus | minus
deriving DecidableEq, Repr

inductive MultiplicativeOp
  | multiply | divide | modulo
deriving DecidableEq, Repr

inductive Constant
  | number (value : Binary64)
  /-- The context of the evaluation. -/
  | system
  /-- The characters between the quotes. -/
  | literal (contents : String)
deriving DecidableEq, Repr

inductive LocalName
  | wildcard
  | name (text : String)
deriving DecidableEq, Repr

/-- The name of a node or attribute: `local`, or `qualifier:local`. -/
structure QName where
  qualifier : Option String
  localName : LocalName
deriving DecidableEq, Repr

mutual

inductive Expr
  | constant (c : Constant)
  /-- `$name` -/
  | variableRef (name : String)
  | call (c : Call)
  /-- An expression in parentheses. -/
  | group (inner : Expr)
  | selector (s : Selector)
  | or (operands : List Expr)
  | and (operands : List Expr)
  | comparison (op : RelationalOp) (left right : Expr)
  | additive (first : Expr) (rest : List (AdditiveOp × Expr))
  | multiplicative (first : Expr) (rest : List (MultiplicativeOp × Expr))
  | union (selectors : List Selector)

/-- `name(args)`, or `$name(args)` with a dollar. -/
inductive Call
  | mk (withDollar : Bool) (name : String) (args : List Expr)

inductive Selector
  /-- Steps with a slash between them, and one in front if the path is absolute. -/
  | steps (absolute : Bool) (steps : List Step)
  /-- `$(inner)` -/
  | scoped (inner : Selector)

inductive Step
  /-- `..` -/
  | parent
  /-- `.` -/
  | current
  /-- A node, or an attribute of it, by name. -/
  | named (isAttribute : Bool) (name : QName) (predicate : Predicate)

/-- What stands in brackets after a named step. -/
inductive Predicate
  | absent
  /-- `[i]` -/
  | index (i : Index)
  /-- `[filter]` -/
  | filter (f : Filter)
  /-- `[filter][i]` -/
  | filterThenIndex (f : Filter) (i : Index)

inductive Filter
  | empty
  | call (c : Call)
  | selector (s : Selector)
  /-- Any other expression: an operator, a constant, a variable or a group. -/
  | operator (e : Expr)

end

namespace Expr

def isSelector : Expr → Bool
  | selector _ => true
  | _ => false

/-- An expression made by operators. -/
def isOperator : Expr → Bool
  | or _ | and _ | comparison .. | additive .. | multiplicative .. | union _ => true
  | _ => false

/-- The name of the kind of a node. -/
def kindName : Expr → String
  | constant _ => "constant"
  | variableRef _ => "variable"
  | call _ => "function call"
  | group _ => "group"
  | selector _ => "selector"
  | or _ => "or"
  | and _ => "and"
  | comparison .. => "comparison"
  | additive .. => "additive"
  | multiplicative .. => "multiplicative"
  | union _ => "union"

end Expr

/-- The filter with `e` in its brackets. -/
def Filter.ofExpr : Expr → Filter
  | .call c => .call c
  | .selector s => .selector s
  | e => .operator e

namespace QName

/-- A name without a qualifier. -/
def plain (name : String) : QName :=
  ⟨none, .name name⟩

end QName

namespace Step

/-- A child or attribute step without a qualifier and without a predicate. -/
def plain (isAttribute : Bool) (name : String) : Step :=
  named isAttribute (.plain name) .absent

end Step

/-- An expression and the part of the text that it was read from. -/
structure Parsed where
  root : Expr
  span : Span

end MapExpr
