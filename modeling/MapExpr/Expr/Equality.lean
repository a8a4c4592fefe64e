import MapExpr.Expr.Basic

/-!
# Equality of expressions

Two expressions are the same if they have the same shape, names and texts, and equal numbers. As
numbers are compared by value, the two zeros do not tell expressions apart, and an expression with
a not-a-number in it is not the same as itself.
-/

namespace MapExpr

def Constant.same : Constant → Constant → Bool
  | number x, number y => x.equals y
  | system, system => true
  | literal s, literal t => s == t
  | _, _ => false

mutual

def Expr.same : Expr → Expr → Bool
  | .constant c, .constant d => c.same d
  | .variableRef x, .variableRef y => x == y
  | .call c, .call d => c.same d
  | .group e, .group f => e.same f
  | .selector s, .selector t => s.same t
  | .or es, .or fs => Expr.sameAll es fs
  | .and es, .and fs => Expr.sameAll es fs
  | .comparison o e₁ e₂, .comparison p f₁ f₂ => o == p && (e₁.same f₁ && e₂.same f₂)
  | .additive e es, .additive f fs => e.same f && Expr.sameSums es fs
  | .multiplicative e es, .multiplicative f fs => e.same f && Expr.sameProducts es fs
  | .union ss, .union ts => Selector.sameAll ss ts
  | _, _ => false

def Expr.sameAll : List Expr → List Expr → Bool
  | [], [] => true
  | e :: es, f :: fs => e.same f && Expr.sameAll es fs
  | _, _ => false

def Expr.sameSums : List (AdditiveOp × Expr) → List (AdditiveOp × Expr) → Bool
  | [], [] => true
  | (o, e) :: es, (p, f) :: fs => o == p && (e.same f && Expr.sameSums es fs)
  | _, _ => false

def Expr.sameProducts : List (MultiplicativeOp × Expr) → List (MultiplicativeOp × Expr) → Bool
  | [], [] => true
  | (o, e) :: es, (p, f) :: fs => o == p && (e.same f && Expr.sameProducts es fs)
  | _, _ => false

def Call.same : Call → Call → Bool
  | .mk d x es, .mk e y fs => d == e && (x == y && Expr.sameAll es fs)

def Selector.same : Selector → Selector → Bool
  | .steps a ss, .steps b ts => a == b && Step.sameAll ss ts
  | .scoped s, .scoped t => s.same t
  | _, _ => false

def Selector.sameAll : List Selector → List Selector → Bool
  | [], [] => true
  | s :: ss, t :: ts => s.same t && Selector.sameAll ss ts
  | _, _ => false

def Step.same : Step → Step → Bool
  | .parent, .parent => true
  | .current, .current => true
  | .named a x p, .named b y q => a == b && (x == y && p.same q)
  | _, _ => false

def Step.sameAll : List Step → List Step → Bool
  | [], [] => true
  | s :: ss, t :: ts => s.same t && Step.sameAll ss ts
  | _, _ => false

def Predicate.same : Predicate → Predicate → Bool
  | .absent, .absent => true
  | .index i, .index j => i == j
  | .filter f, .filter g => f.same g
  | .filterThenIndex f i, .filterThenIndex g j => f.same g && i == j
  | _, _ => false

def Filter.same : Filter → Filter → Bool
  | .empty, .empty => true
  | .call c, .call d => c.same d
  | .selector s, .selector t => s.same t
  | .operator e, .operator f => e.same f
  | _, _ => false

end

/-- The same expression, read from the same part of a text. -/
def Parsed.same (p q : Parsed) : Bool :=
  p.root.same q.root && p.span == q.span

end MapExpr
