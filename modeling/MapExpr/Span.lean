/-!
# Spans

Positions in a text are counted in bytes of its UTF-8 form.
-/

namespace MapExpr

/-- The bytes of a text from `start` up to, and not including, `stop`. -/
structure Span where
  start : Nat
  stop : Nat
deriving DecidableEq, Repr

namespace Span

def length (s : Span) : Nat :=
  s.stop - s.start

def isEmpty (s : Span) : Bool :=
  s.start == s.stop

end Span

end MapExpr
