/-!
# Decimal numerals

Numbers as they are written in a text: an optional minus sign, digits, and for some a point.

* `Decimal.ofText?`: a numeral with or without a point, read as a coefficient and its places;
* `Decimal.Integer.ofText?`: a numeral without a point, read as a signed 64-bit integer;
* `Decimal.fixed`: a coefficient written out with a given number of places.
-/

-- Powers are those of natural numbers and integers themselves, not those of a monoid.
attribute [instance (2000), default_instance 20000] instPowNat

namespace MapExpr

/-- The number `coefficient / 10 ^ places`, negated if `negative`. -/
structure Decimal where
  negative : Bool
  coefficient : Nat
  places : Nat
deriving DecidableEq, Repr

namespace Decimal

/-- The number that a text of digits writes; the empty text writes zero. -/
def natOfDigits (s : List Char) : Nat :=
  Nat.ofDigitChars 10 s 0

/-- A minus sign in front, and the rest. -/
def sign : List Char → Bool × List Char
  | '-' :: s => (true, s)
  | s => (false, s)

/-- Reads an unsigned numeral: digits with an optional point, at least one digit in all. -/
def magnitude? (negative : Bool) (s : List Char) : Option Decimal :=
  let whole := s.takeWhile Char.isDigit
  match s.dropWhile Char.isDigit with
  | [] => if whole = [] then none else some ⟨negative, natOfDigits whole, 0⟩
  | '.' :: fraction =>
    if (whole ++ fraction) ≠ [] ∧ fraction.all Char.isDigit then
      some ⟨negative, natOfDigits (whole ++ fraction), fraction.length⟩
    else none
  | _ => none

/-- Reads a numeral with an optional minus sign. -/
def ofText? (text : String) : Option Decimal :=
  let (negative, s) := sign text.toList
  magnitude? negative s

/-- `n` in decimal digits, with zeros in front up to `width` digits. -/
def padded (width n : Nat) : List Char :=
  let digits := Nat.toDigits 10 n
  List.replicate (width - digits.length) '0' ++ digits

/-- `n / 10 ^ places` with all its places, and without a point if it has none. -/
def fixed (places n : Nat) : List Char :=
  if places = 0 then Nat.toDigits 10 n
  else Nat.toDigits 10 (n / 10 ^ places) ++ '.' :: padded places (n % 10 ^ places)

/-! ## Integers -/

namespace Integer

/-- The integers of 64 bits with a sign. -/
def InRange (n : Int) : Prop :=
  -2 ^ 63 ≤ n ∧ n < 2 ^ 63

instance (n : Int) : Decidable (InRange n) := by
  unfold InRange; infer_instance

/-- Reads digits with an optional minus sign, if the integer has 64 bits. -/
def ofText? (text : String) : Option Int64 :=
  let (negative, digits) := sign text.toList
  let n : Int := natOfDigits digits
  let signed := if negative then -n else n
  if digits ≠ [] ∧ digits.all Char.isDigit ∧ InRange signed then some (.ofInt signed) else none

end Integer

end Decimal

end MapExpr
