import MapExpr.Number.Decimal

/-!
# Binary floating point

The numbers of IEEE 754 binary64. The nonnegative ones, infinity and the not-a-numbers after it
included, are counted from zero upwards; this `rank` is also their bit pattern. Magnitudes are
counted in units of `2 ^ -1074`, the distance of the two smallest ones, so that all arithmetic is
on natural numbers.

* `Binary64.units`: the magnitude of a finite rank;
* `Binary64.rankOfRatio`: the rank nearest to a quotient, of two the even one;
* `Binary64.ofDecimal`, `Binary64.ofInt`: correctly rounded conversions;
* `Binary64.equals`: equality of numbers, under which the two zeros are one and a not-a-number is
  not itself.
-/

namespace MapExpr

/-- A sign and the bits below it. -/
structure Binary64 where
  negative : Bool
  rank : Nat
  rank_lt : rank < 2 ^ 63
deriving DecidableEq, Repr

namespace Binary64

/-- The rank of infinity, above all finite ranks and below those of the not-a-numbers. -/
def infinityRank : Nat := 2047 * 2 ^ 52

def isNaN (x : Binary64) : Bool :=
  infinityRank < x.rank

def isFinite (x : Binary64) : Bool :=
  x.rank < infinityRank

/-- Equality of numbers. -/
def equals (x y : Binary64) : Bool :=
  !x.isNaN && !y.isNaN && (x.rank == y.rank && (x.negative == y.negative || x.rank == 0))

/-! ## Bits -/

/-- The number with the lowest 64 bits of `n` as its bit pattern. -/
def ofBits (n : Nat) : Binary64 :=
  ⟨n / 2 ^ 63 % 2 = 1, n % 2 ^ 63, Nat.mod_lt _ (by decide)⟩

def toBits (x : Binary64) : Nat :=
  (if x.negative then 2 ^ 63 else 0) + x.rank

theorem ofBits_toBits (x : Binary64) : ofBits x.toBits = x := by
  obtain ⟨negative, rank, h⟩ := x
  cases negative <;> simp [ofBits, toBits] <;> omega

/-! ## Magnitudes -/

/-- The exponent of the last place of a rank, in units. -/
def exponent (rank : Nat) : Nat :=
  rank / 2 ^ 52 - 1

/-- A rank's magnitude in its last place. -/
def significand (rank : Nat) : Nat :=
  if rank < 2 ^ 52 then rank else 2 ^ 52 + rank % 2 ^ 52

/-- The magnitude of a rank in units of `2 ^ -1074`; that of infinity is the power of two which
the largest finite magnitude falls short of. -/
def units (rank : Nat) : Nat :=
  significand rank * 2 ^ exponent rank

/-- The unit as a fraction of one: one is so many units. -/
def unitsPerOne : Nat := 2 ^ 1074

/-- `num / den` rounded to the nearest natural number, halves to the even one. -/
def roundHalfEven (num den : Nat) : Nat :=
  let q := num / den
  let twice := 2 * (num % den)
  if twice < den then q else if den < twice then q + 1 else q + q % 2

/-- The rank nearest to `num / den` units, halves to the even one. -/
def rankOfRatio (num den : Nat) : Nat :=
  let e := (num / den).log2 - 52
  min (e * 2 ^ 52 + roundHalfEven num (den * 2 ^ e)) infinityRank

theorem rankOfRatio_le (num den : Nat) : rankOfRatio num den ≤ infinityRank :=
  Nat.min_le_right _ _

/-- The number nearest to `num / den` units, negated if `negative`. -/
def ofRatio (negative : Bool) (num den : Nat) : Binary64 :=
  ⟨negative, rankOfRatio num den, Nat.lt_of_le_of_lt (rankOfRatio_le num den) (by decide)⟩

def ofDecimal (d : Decimal) : Binary64 :=
  ofRatio d.negative (d.coefficient * unitsPerOne) (10 ^ d.places)

def ofInt (n : Int) : Binary64 :=
  ofRatio (n < 0) (n.natAbs * unitsPerOne) 1

/-- A finite number without a fraction. -/
def isWhole (x : Binary64) : Bool :=
  x.isFinite && units x.rank % unitsPerOne == 0

end Binary64

end MapExpr
