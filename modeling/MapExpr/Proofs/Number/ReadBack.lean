import MapExpr.Expr.Print
import MapExpr.Proofs.Number.Numeral
import MapExpr.Proofs.Number.Rounding

/-!
# Written numbers read back

* `Binary64.Spells`: a numeral that is read back as a number;
* `Binary64.toText_spells`: the fewest digits that the search finds read back, and have a point
  unless the number is whole;
* `Binary64.wholeText_spells`: so does a whole number with one place;
* `Index.ofText?_toString`: an index is read back as an integer.
-/

namespace MapExpr

namespace Shortest

open Binary64

/-! ## The search -/

theorem fine_pos : 0 < fine := by
  unfold fine
  generalize 1074 = n
  exact Nat.pow_pos (by decide)

theorem ten_pow_eq (n : Nat) : 10 ^ n = 2 ^ n * 5 ^ n := by
  rw [← Nat.mul_pow]

/-- A positive rank's magnitude lies strictly between the ends of its interval. -/
theorem contains_value {rank : Nat} (hpos : 0 < rank) :
    (Interval.ofRank rank).contains (Interval.ofRank rank).value = true := by
  obtain ⟨rank, rfl⟩ : ∃ r, rank = r + 1 := ⟨rank - 1, by omega⟩
  have hbelow := Nat.mul_lt_mul_of_pos_right (units_lt_units_succ rank) fine_pos
  have habove := Nat.mul_lt_mul_of_pos_right (units_lt_units_succ (rank + 1)) fine_pos
  simp only [Interval.ofRank, Interval.contains, Nat.add_sub_cancel, Nat.add_mul]
  generalize units rank * fine = a at *
  generalize units (rank + 1) * fine = b at *
  split <;> simp only [Bool.and_eq_true, decide_eq_true_eq] <;> omega

theorem contains_of_onGrid? {i : Interval} {step n : Nat} (h : onGrid? i step = some n) :
    i.contains (n * step) = true := by
  simp only [onGrid?] at h
  cases hbelow : i.contains (i.value / step * step) <;>
    cases habove : i.contains ((i.value / step + 1) * step) <;>
    simp only [hbelow, habove, Option.some.injEq, reduceCtorEq] at h
  · rwa [← h]
  · rwa [← h]
  · rw [← h]
    split
    · exact hbelow
    · exact habove

/-- The point that is found lies in the interval, for the finest grid holds the number itself. -/
theorem contains_coarsest {i : Interval} (hvalue : i.contains i.value = true) (s : Nat) :
    i.contains ((coarsest i s).1 * 10 ^ (coarsest i s).2) = true := by
  induction s with
  | zero => simpa [coarsest] using hvalue
  | succ s ih =>
    simp only [coarsest]
    split
    · rename_i n h
      exact contains_of_onGrid? h
    · exact ih

theorem digits_eq (rank : Nat) : digits rank = writtenOut 1074
    (coarsest (Interval.ofRank rank) (exponentAbove (Interval.ofRank rank).value)) := rfl

theorem writtenOut_eq_fixed (k n s : Nat) :
    ∃ places m, writtenOut k (n, s) = Decimal.fixed places m ∧
      m * (2 ^ k * 5 ^ k) = n * 10 ^ s * 10 ^ places := by
  rw [← ten_pow_eq]
  simp only [writtenOut]
  split
  · rename_i h
    refine ⟨0, n * 10 ^ (s - k), rfl, ?_⟩
    rw [Nat.mul_assoc, ← Nat.pow_add, Nat.sub_add_cancel h, Nat.pow_zero, Nat.mul_one]
  · rename_i h
    refine ⟨k - s, n, rfl, ?_⟩
    rw [Nat.mul_assoc, ← Nat.pow_add, Nat.add_sub_cancel' (by omega)]

/-- The digits of a rank write a magnitude in its interval. -/
theorem digits_eq_fixed {rank : Nat} (hpos : 0 < rank) :
    ∃ places n x, digits rank = Decimal.fixed places n ∧
      (Interval.ofRank rank).contains x = true ∧ n * unitsPerOne * fine = x * 10 ^ places := by
  have hmem := contains_coarsest (contains_value hpos) (exponentAbove (Interval.ofRank rank).value)
  rw [digits_eq]
  generalize exponentAbove (Interval.ofRank rank).value = start at *
  generalize coarsest (Interval.ofRank rank) start = found at *
  obtain ⟨n, s⟩ := found
  obtain ⟨places, m, htext, hval⟩ := writtenOut_eq_fixed 1074 n s
  refine ⟨places, m, n * 10 ^ s, htext, hmem, ?_⟩
  rw [unitsPerOne, fine, Nat.mul_assoc, hval]

/-! ## Reading back -/

theorem le_of_contains {i : Interval} {x : Nat} (h : i.contains x = true) :
    i.lowTwice ≤ 2 * x ∧ 2 * x ≤ i.highTwice ∧
      (i.closed = false → i.lowTwice < 2 * x ∧ 2 * x < i.highTwice) := by
  simp only [Interval.contains] at h
  cases hclosed : i.closed with
  | true =>
    simp only [hclosed, ↓reduceIte, Bool.and_eq_true, decide_eq_true_eq] at h
    exact ⟨h.1, h.2, fun hopen => nomatch hopen⟩
  | false =>
    simp only [hclosed, Bool.false_eq_true, ↓reduceIte, Bool.and_eq_true, decide_eq_true_eq] at h
    exact ⟨Nat.le_of_lt h.1, Nat.le_of_lt h.2, fun _ => h⟩

/-- A bound in units is one in the finer unit. -/
theorem scale_le_iff {a x num den f : Nat} (hf : 0 < f) (hden : 0 < den) (hx : num * f = x * den) :
    (a * den ≤ 2 * num ↔ a * f ≤ 2 * x) ∧ (2 * num ≤ a * den ↔ 2 * x ≤ a * f) := by
  have hscale : a * den * f = a * f * den := Nat.mul_right_comm a den f
  have htwice : 2 * num * f = 2 * x * den := by rw [Nat.mul_assoc, hx, Nat.mul_assoc]
  constructor
  · rw [← Nat.mul_le_mul_right_iff hf, hscale, htwice, Nat.mul_le_mul_right_iff hden]
  · rw [← Nat.mul_le_mul_right_iff hf, hscale, htwice, Nat.mul_le_mul_right_iff hden]

/-- What an interval holds, as inequalities between numbers of units. -/
theorem bounds_of_contains {rank x num den : Nat} (hden : 0 < den) (hx : num * fine = x * den)
    (h : (Interval.ofRank rank).contains x = true) :
    (units (rank - 1) + units rank) * den ≤ 2 * num ∧
      2 * num ≤ (units rank + units (rank + 1)) * den ∧
      (rank % 2 = 1 → (units (rank - 1) + units rank) * den < 2 * num ∧
        2 * num < (units rank + units (rank + 1)) * den) := by
  have hbelow := scale_le_iff (a := units (rank - 1) + units rank) fine_pos hden hx
  have habove := scale_le_iff (a := units rank + units (rank + 1)) fine_pos hden hx
  obtain ⟨hlow, hhigh, hopen⟩ := le_of_contains h
  refine ⟨hbelow.1.2 hlow, habove.2.2 hhigh, fun hodd => ?_⟩
  have hclosed : (Interval.ofRank rank).closed = false := by
    simp only [Interval.ofRank, hodd]
    rfl
  exact ⟨Nat.lt_of_not_le fun hle => Nat.not_le_of_lt (hopen hclosed).1 (hbelow.2.1 hle),
    Nat.lt_of_not_le fun hle => Nat.not_le_of_lt (hopen hclosed).2 (habove.1.1 hle)⟩

/-- The exponents grow with the ranks, so no step is longer than the next one. -/
theorem units_le_pred_add {rank : Nat} (hpos : 0 < rank) :
    units rank ≤ units (rank - 1) + 2 ^ exponent rank := by
  obtain ⟨rank, rfl⟩ : ∃ r, rank = r + 1 := ⟨rank - 1, by omega⟩
  have hexp : exponent rank ≤ exponent (rank + 1) := by
    simp only [exponent]
    omega
  have := Nat.pow_le_pow_right (show 0 < 2 by decide) hexp
  rw [units_succ, Nat.add_sub_cancel, Nat.add_mul, ← units]
  omega

/-- Only a whole number has an integer in its interval. -/
theorem units_mod_eq_zero {rank c : Nat} (hpos : 0 < rank)
    (low : (units (rank - 1) + units rank) * 1 ≤ 2 * (c * unitsPerOne))
    (high : 2 * (c * unitsPerOne) ≤ (units rank + units (rank + 1)) * 1) :
    units rank % unitsPerOne = 0 := by
  have hpred := units_le_pred_add hpos
  rw [units_succ] at high
  generalize units (rank - 1) = below at *
  rw [units] at *
  generalize significand rank = s at *
  generalize exponent rank = e at *
  by_cases h : 1074 ≤ e
  · rw [unitsPerOne, ← Nat.sub_add_cancel h, Nat.pow_add, ← Nat.mul_assoc]
    exact Nat.mul_mod_left _ _
  · -- the integer and the number are both multiples of the last place, and less than one apart
    have hc : c * unitsPerOne = c * 2 ^ (1074 - e) * 2 ^ e := by
      rw [Nat.mul_assoc, ← Nat.pow_add, Nat.sub_add_cancel (by omega), unitsPerOne]
    have hs : s = c * 2 ^ (1074 - e) := by
      rw [hc] at low high
      have hunit := Nat.two_pow_pos e
      generalize c * 2 ^ (1074 - e) = m at *
      generalize 2 ^ e = u at *
      have hs := Nat.add_one_mul s u
      have hm := Nat.add_one_mul m u
      have h₁ : s < m + 1 := Nat.lt_of_mul_lt_mul_right (a := u) (by omega)
      have h₂ : m < s + 1 := Nat.lt_of_mul_lt_mul_right (a := u) (by omega)
      omega
    rw [hs, ← hc]
    exact Nat.mul_mod_left _ _

end Shortest

namespace Binary64

open Decimal

/-- `text` is a numeral with the places `places` that is read back as `x`. -/
def Spells (x : Binary64) (places : Nat) (text : String) : Prop :=
  ∃ n, text = .ofList (numeral x.negative places n) ∧ ofDecimal ⟨x.negative, n, places⟩ = x

theorem ofRatio_eq {x : Binary64} {num den : Nat} (h : rankOfRatio num den = x.rank) :
    ofRatio x.negative num den = x := by
  obtain ⟨negative, rank, hlt⟩ := x
  simp only [ofRatio, mk.injEq, true_and]
  exact h

theorem signed_ofList (x : Binary64) (places n : Nat) :
    x.signed (.ofList (fixed places n)) = .ofList (numeral x.negative places n) := by
  have hcons : ∀ s, String.ofList ('-' :: s) = "-" ++ String.ofList s := fun s => by
    rw [← List.singleton_append, String.ofList_append]
  cases h : x.negative <;> simp [signed, numeral, h, hcons]

/-- The text of a finite number reads back, and has a point unless the number is whole. -/
theorem toText_spells {x : Binary64} (h : x.isFinite = true) :
    ∃ places, x.Spells places x.toText ∧ (places = 0 → x.isWhole = true) := by
  have hfin : x.rank < infinityRank := by simpa [isFinite] using h
  simp only [toText, isNaN_eq_false h, h, Bool.false_eq_true, ↓reduceIte, isWhole, Bool.true_and,
    beq_iff_eq]
  split
  · rename_i hzero
    refine ⟨0, ⟨0, ?_, ofRatio_eq ?_⟩, fun _ => ?_⟩
    · exact signed_ofList x 0 0
    · simp [hzero, rankOfRatio, roundHalfEven]
    · simp [hzero, units, significand]
  · rename_i hne
    have hpos := Nat.pos_of_ne_zero hne
    obtain ⟨places, n, m, hdigits, hmem, hval⟩ := Shortest.digits_eq_fixed hpos
    have hden : 0 < 10 ^ places := Nat.pow_pos (by decide)
    obtain ⟨low, high, odd⟩ := Shortest.bounds_of_contains hden hval hmem
    refine ⟨places, ⟨n, by rw [hdigits, signed_ofList], ofRatio_eq ?_⟩, ?_⟩
    · exact rankOfRatio_eq hpos hfin hden low high odd
    · rintro rfl
      exact Shortest.units_mod_eq_zero hpos low high

theorem toText_of_isFinite_eq_false {x : Binary64} (h : x.isFinite = false) :
    x.toText = "NaN" ∨ x.toText = "inf" ∨ x.toText = "-inf" := by
  simp only [toText, h, Bool.false_eq_true, ↓reduceIte, signed]
  cases x.isNaN <;> cases x.negative <;> decide

theorem toText_of_rank_eq {x : Binary64} (h : x.rank = infinityRank) :
    x.toText = if x.negative then "-inf" else "inf" := by
  have hnan : x.isNaN = false := by simp [isNaN, h]
  have hfinite : x.isFinite = false := by simp [isFinite, h]
  simp only [toText, hnan, hfinite, signed]
  rfl

/-- A whole number with one place reads back. -/
theorem wholeText_spells {x : Binary64} (h : x.isWhole = true) : x.Spells 1 x.wholeText := by
  simp only [isWhole, Bool.and_eq_true, beq_iff_eq] at h
  have hfin : x.rank < infinityRank := by simpa [isFinite] using h.1
  refine ⟨10 * (units x.rank / unitsPerOne), signed_ofList x 1 _, ofRatio_eq ?_⟩
  have hunits := Nat.div_mul_cancel (Nat.dvd_of_mod_eq_zero h.2)
  rw [Nat.mul_assoc, hunits, Nat.mul_comm]
  exact rankOfRatio_units hfin (by decide)

end Binary64

/-! ## Indexes -/

namespace Index

open Decimal

theorem toString_eq (i : Int) : toString i = .ofList (numeral (i < 0) 0 i.natAbs) := by
  cases i with
  | ofNat n =>
    have hneg : ¬(Int.ofNat n < 0) := by simp
    simp only [hneg, decide_false, numeral, fixed, Bool.false_eq_true, ↓reduceIte]
    exact Nat.repr_eq_ofList_toDigits
  | negSucc n =>
    have hneg : Int.negSucc n < 0 := Int.negSucc_lt_zero n
    simp only [hneg, decide_true, numeral, fixed, ↓reduceIte]
    rw [← List.singleton_append, String.ofList_append]
    exact congrArg ("-" ++ ·) Nat.repr_eq_ofList_toDigits

/-- The text of an index is read back as the index. -/
theorem ofText?_toString (i : Index) : Integer.ofText? (toString i.toInt) = some i := by
  have habs : (if (i.toInt < 0 : Bool) then -(i.toInt.natAbs : Int) else i.toInt.natAbs) =
      i.toInt := by
    by_cases h : i.toInt < 0
    · rw [decide_eq_true h, if_pos rfl, Int.ofNat_natAbs_of_nonpos (Int.le_of_lt h), Int.neg_neg]
    · rw [decide_eq_false h, if_neg Bool.false_ne_true, Int.natAbs_of_nonneg (Int.not_lt.1 h)]
  have hrange : Integer.InRange i.toInt := ⟨Int64.le_toInt i, Int64.toInt_lt i⟩
  rw [toString_eq, Integer.ofText?_numeral (by rw [habs]; exact hrange), habs, Int64.ofInt_toInt]

end Index

end MapExpr
