import MapExpr.Parse.Event
import MapExpr.Token.Basic

/-!
# Operator chains

An expression is read operand by operand. A chain holds what stands before the present operand at
each level, from the operands of `or` down to the factors of the product that is being read, the
newest first. An operator closes the tighter levels, and each closed level with an operator in it
is a node.

* `Operator.ofKind?`: the operators and their levels;
* `Chain.push`: an operator follows, which may not be a second comparison on one level;
* `Chain.product`, `Chain.sum`, `Chain.comparison`, `Chain.conjunction`, `Chain.disjunction`: the
  node that ends at each level, the last of them when no operator follows.
-/

namespace MapExpr.Parse

/-- An operator between two operands. -/
inductive Operator
  | or
  | and
  | relational (op : RelationalOp)
  | additive (op : AdditiveOp)
  | multiplicative (op : MultiplicativeOp)
deriving DecidableEq, Repr

def Operator.ofKind? : Kind → Option Operator
  | .orWord => some .or
  | .andWord => some .and
  | .less => some (.relational .less)
  | .greater => some (.relational .greater)
  | .lessEqual => some (.relational .lessEqual)
  | .greaterEqual => some (.relational .greaterEqual)
  | .equal => some (.relational .equal)
  | .notEqual => some (.relational .notEqual)
  | .plus => some (.additive .plus)
  | .minus => some (.additive .minus)
  | .star => some (.multiplicative .multiply)
  | .divWord => some (.multiplicative .divide)
  | .modWord => some (.multiplicative .modulo)
  | _ => none

/-- The operands before the present one, each with the operator after it. -/
structure Chain where
  disjuncts : List Expr
  conjuncts : List Expr
  compared : Option (Expr × RelationalOp)
  terms : List (Expr × AdditiveOp)
  factors : List (Expr × MultiplicativeOp)

namespace Chain

/-- No operand stands before the present one. -/
def empty : Chain :=
  ⟨[], [], none, [], []⟩

/-- The first operand, and the operators and operands after it, of a level with the last operand
`last`, in front of operands that are already in order. -/
def unroll {Op : Type} : List (Expr × Op) → Expr → List (Op × Expr) → Expr × List (Op × Expr)
  | [], first, rest => (first, rest)
  | (e, op) :: before, last, rest => unroll before e ((op, last) :: rest)

/-- The product that ends with the operand `e`. -/
def product (c : Chain) (e : Expr) : Traced Expr :=
  match c.factors with
  | [] => pure e
  | factors =>
    let (first, rest) := unroll factors e []
    .note (.multiplicative (rest.length + 1)) (.multiplicative first rest)

/-- The sum that ends with the operand `e`. -/
def sum (c : Chain) (e : Expr) : Traced Expr := do
  let e ← c.product e
  match c.terms with
  | [] => pure e
  | terms =>
    let (first, rest) := unroll terms e []
    .note (.additive (rest.length + 1)) (.additive first rest)

/-- The comparison that ends with the operand `e`. -/
def comparison (c : Chain) (e : Expr) : Traced Expr := do
  let e ← c.sum e
  match c.compared with
  | none => pure e
  | some (left, op) => .note (.comparison op) (.comparison op left e)

/-- The conjunction that ends with the operand `e`. -/
def conjunction (c : Chain) (e : Expr) : Traced Expr := do
  let e ← c.comparison e
  match c.conjuncts with
  | [] => pure e
  | before => .note (.and (before.length + 1)) (.and (e :: before).reverse)

/-- The whole expression that ends with the operand `e`. -/
def disjunction (c : Chain) (e : Expr) : Traced Expr := do
  let e ← c.conjunction e
  match c.disjuncts with
  | [] => pure e
  | before => .note (.or (before.length + 1)) (.or (e :: before).reverse)

/-- The chain after the operand `e` and an operator; none after a second comparison. -/
def push (c : Chain) (e : Expr) : Operator → Traced (Option Chain)
  | .multiplicative op => pure (some { c with factors := (e, op) :: c.factors })
  | .additive op => do
    let e ← c.product e
    pure (some { c with factors := [], terms := (e, op) :: c.terms })
  | .relational op => do
    let e ← c.sum e
    match c.compared with
    | none => pure (some { c with factors := [], terms := [], compared := some (e, op) })
    | some _ => pure none
  | .and => do
    let e ← c.comparison e
    pure (some { Chain.empty with disjuncts := c.disjuncts, conjuncts := e :: c.conjuncts })
  | .or => do
    let e ← c.conjunction e
    pure (some { Chain.empty with disjuncts := e :: c.disjuncts })

/-- Nothing stands before the present operand. -/
def isEmpty : Chain → Bool
  | ⟨[], [], none, [], []⟩ => true
  | _ => false

theorem eq_empty {c : Chain} (h : c.isEmpty = true) : c = empty := by
  obtain ⟨disjuncts, conjuncts, compared, terms, factors⟩ := c
  simp only [isEmpty] at h
  split at h
  · simp_all [empty]
  · simp at h

end Chain

end MapExpr.Parse
