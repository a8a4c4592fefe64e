import MapExpr.Expr.Equality
import MapExpr.Expr.Print
import MapExpr.Parse.Basic

/-!
# Reading back

An expression is printed and its text is parsed again.
-/

namespace MapExpr

/-- What an expression's text reads back as, and whether that is the same expression. -/
structure Reread where
  again : Expr
  same : Bool

/-- Prints `e` and parses the text. -/
def Expr.reread (settings : Settings) (e : Expr) : Except ParseError Reread := do
  let parsed ← parse settings e.print
  return ⟨parsed.root, e.same parsed.root⟩

end MapExpr
