/-!
# Settings
-/

namespace MapExpr

/-- What a parse is told besides the text. -/
structure Settings where
  /-- The deepest nesting that is followed. A group, an argument and a scoped selector count once,
  a filter counts four times. -/
  maxDepth : Nat := 256
deriving DecidableEq, Repr

namespace Settings

def withMaxDepth (s : Settings) (maxDepth : Nat) : Settings :=
  { s with maxDepth }

end Settings

end MapExpr
