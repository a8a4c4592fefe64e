import MapExpr.Number.Binary64

/-!
# Shortest decimals

The text of a binary floating-point number: the fewest digits that read back as the number,
written out without an exponent. Magnitudes are counted here in `10 ^ -1074`, of which the unit
`2 ^ -1074` holds a whole number, and a grid is the multiples of a power of ten of these.

* `Shortest.Interval`: the magnitudes that read back as a rank;
* `Shortest.onGrid?`: the point of a grid in the interval that is nearest to the number;
* `Shortest.coarsest`: such a point of the coarsest grid that has one;
* `Binary64.toText`, `Binary64.wholeText`: the two written forms.
-/

namespace MapExpr

namespace Shortest

/-- How many `10 ^ -1074` there are in `2 ^ -1074`. -/
def fine : Nat := 5 ^ 1074

/-- A magnitude and twice the ends of the interval that rounds to it; `closed` if the ends do. -/
structure Interval where
  value : Nat
  lowTwice : Nat
  highTwice : Nat
  closed : Bool
deriving DecidableEq, Repr

/-- The interval of a positive rank: halfway to both neighbours, and ties go to the even rank. -/
def Interval.ofRank (rank : Nat) : Interval :=
  let below := Binary64.units (rank - 1)
  let here := Binary64.units rank
  let above := Binary64.units (rank + 1)
  ⟨here * fine, (below + here) * fine, (here + above) * fine, rank % 2 == 0⟩

/-- The magnitude `x` reads back. -/
def Interval.contains (i : Interval) (x : Nat) : Bool :=
  if i.closed then i.lowTwice ≤ 2 * x && 2 * x ≤ i.highTwice
  else i.lowTwice < 2 * x && 2 * x < i.highTwice

/-- The multiple of `step` in the interval that is nearest to the number, the greater of two that
are equally near; the result counts steps. -/
def onGrid? (i : Interval) (step : Nat) : Option Nat :=
  let below := i.value / step
  let above := below + 1
  match i.contains (below * step), i.contains (above * step) with
  | true, true => some (if i.value - below * step < above * step - i.value then below else above)
  | true, false => some below
  | false, true => some above
  | false, false => none

/-- The point found on the first grid that has one, going from `10 ^ s` to finer grids, with the
exponent of its grid. The finest grid holds the number itself. -/
def coarsest (i : Interval) : Nat → Nat × Nat
  | 0 => (i.value, 0)
  | s + 1 =>
    match onGrid? i (10 ^ (s + 1)) with
    | some n => (n, s + 1)
    | none => coarsest i s

/-- An exponent of ten above `n`, as `2 ^ 93 < 10 ^ 28`. -/
def exponentAbove (n : Nat) : Nat :=
  28 * n.log2 / 93 + 1

/-- Point `n` of the grid of `10 ^ s` written out, where one is `10 ^ places`. -/
def writtenOut (places : Nat) : Nat × Nat → List Char
  | (n, s) =>
    if places ≤ s then Nat.toDigits 10 (n * 10 ^ (s - places)) else Decimal.fixed (places - s) n

/-- The fewest digits that read back as a positive finite rank. -/
def digits (rank : Nat) : List Char :=
  let i := Interval.ofRank rank
  writtenOut 1074 (coarsest i (exponentAbove i.value))

end Shortest

namespace Binary64

/-- The text of a magnitude with the sign of the number. -/
def signed (x : Binary64) (magnitude : String) : String :=
  if x.negative then "-" ++ magnitude else magnitude

/-- A number in the fewest digits that read back. -/
def toText (x : Binary64) : String :=
  if x.isNaN then "NaN"
  else if x.isFinite then
    x.signed (if x.rank = 0 then "0" else .ofList (Shortest.digits x.rank))
  else x.signed "inf"

/-- A whole number in all its digits and with one place, which is zero. -/
def wholeText (x : Binary64) : String :=
  x.signed (.ofList (Decimal.fixed 1 (10 * (units x.rank / unitsPerOne))))

end Binary64

end MapExpr
