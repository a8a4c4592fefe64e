import MapExpr.Number.Binary64

/-!
# Rounding to a rank

A quotient between the middles of the steps below and above a rank is rounded to that rank, and the
middles themselves belong to the even rank (`rankOfRatio_eq`). So a quotient that is the magnitude
of a rank is rounded to it (`rankOfRatio_units`). An integer of 64 bits is far below infinity
(`isFinite_ofInt`).

Both steps go from `s * 2 ^ e` to `(s + 1) * 2 ^ e`, the one below a rank with the significand and
the exponent of the rank before it. The boundary between two exponents is no case of its own.
-/

namespace MapExpr.Binary64

/-- Nearest to `s`, with the middles to both neighbours allowed only if `s` is even. -/
theorem roundHalfEven_eq {num den s : Nat} (hden : 0 < den)
    (low : 2 * (s * den) ≤ 2 * num + den) (high : 2 * num ≤ 2 * (s * den) + den)
    (odd : s % 2 = 1 → 2 * (s * den) < 2 * num + den ∧ 2 * num < 2 * (s * den) + den) :
    roundHalfEven num den = s := by
  have hnum := Nat.div_add_mod num den
  have hmod := Nat.mod_lt num hden
  rw [Nat.mul_comm] at hnum
  simp only [roundHalfEven]
  generalize num / den = q at *
  generalize num % den = r at *
  have hq : s = q ∨ s = q + 1 := by
    have h₁ : s < q + 2 := Nat.lt_of_mul_lt_mul_right (a := den) (by rw [Nat.add_mul]; omega)
    have h₂ : q < s + 1 := Nat.lt_of_mul_lt_mul_right (a := den) (by rw [Nat.add_mul]; omega)
    omega
  rcases hq with rfl | rfl
  · split
    · rfl
    · split <;> omega
  · rw [Nat.add_mul] at low high odd
    split
    · omega
    · split <;> omega

/-! ## Ranks and magnitudes -/

theorem exponent_mul_add_significand (rank : Nat) :
    exponent rank * 2 ^ 52 + significand rank = rank := by
  simp only [exponent, significand]
  split <;> omega

theorem significand_lt (rank : Nat) : significand rank < 2 ^ 53 := by
  simp only [significand]
  split <;> omega

/-- Only the smallest exponent has small significands. -/
theorem le_significand (rank : Nat) : exponent rank = 0 ∨ 2 ^ 52 ≤ significand rank := by
  simp only [exponent, significand]
  split <;> omega

/-- The step above a rank is one in its last place, also where the exponent grows. -/
theorem units_succ (rank : Nat) :
    units (rank + 1) = (significand rank + 1) * 2 ^ exponent rank := by
  have hrank := exponent_mul_add_significand rank
  have hlt := significand_lt rank
  have hle := le_significand rank
  simp only [units]
  by_cases h : significand rank + 1 < 2 ^ 53
  · have hs : significand (rank + 1) = significand rank + 1 := by
      simp only [significand, exponent] at *
      split <;> split <;> omega
    have he : exponent (rank + 1) = exponent rank := by
      have := exponent_mul_add_significand (rank + 1)
      omega
    rw [hs, he]
  · have hs : significand (rank + 1) = 2 ^ 52 := by
      simp only [significand, exponent] at *
      split <;> omega
    have he : exponent (rank + 1) = exponent rank + 1 := by
      have := exponent_mul_add_significand (rank + 1)
      omega
    rw [hs, he, show significand rank + 1 = 2 ^ 52 * 2 by omega, Nat.pow_add_one 2 (exponent rank),
      Nat.mul_comm (2 ^ exponent rank), ← Nat.mul_assoc]

theorem units_lt_units_succ (rank : Nat) : units rank < units (rank + 1) := by
  rw [units_succ, units]
  exact Nat.mul_lt_mul_of_pos_right (Nat.lt_succ_self _) (Nat.two_pow_pos _)

theorem units_mul (rank den : Nat) :
    units rank * den = significand rank * (den * 2 ^ exponent rank) := by
  rw [units, Nat.mul_assoc, Nat.mul_comm den]

theorem units_succ_mul (rank den : Nat) :
    units (rank + 1) * den = (significand rank + 1) * (den * 2 ^ exponent rank) := by
  rw [units_succ, Nat.mul_assoc, Nat.mul_comm den]

/-! ## The rank of a quotient -/

/-- A quotient from `s * 2 ^ e` up to the next power of two is rounded with exponent `e`. -/
theorem scale_eq {num den s e : Nat} (hden : 0 < den) (hs : e = 0 ∨ 2 ^ 52 ≤ s)
    (low : s * (den * 2 ^ e) ≤ num) (high : num < 2 ^ 53 * (den * 2 ^ e)) :
    (num / den).log2 - 52 = e := by
  have hlt : num / den < 2 ^ (53 + e) := by
    rw [Nat.div_lt_iff_lt_mul hden, Nat.pow_add, Nat.mul_assoc, Nat.mul_comm (2 ^ e)]
    exact high
  have hle : s * 2 ^ e ≤ num / den := by
    rw [Nat.le_div_iff_mul_le hden, Nat.mul_assoc, Nat.mul_comm (2 ^ e)]
    exact low
  by_cases h0 : num / den = 0
  · rcases hs with rfl | hs
    · simp [h0]
    · have := Nat.mul_le_mul hs (Nat.two_pow_pos e)
      omega
  · have hlog := (Nat.log2_lt h0).2 hlt
    rcases hs with rfl | hs
    · omega
    · have : 2 ^ (52 + e) ≤ num / den := by
        rw [Nat.pow_add]
        exact Nat.le_trans (Nat.mul_le_mul_right _ hs) hle
      have := (Nat.le_log2 h0).2 this
      omega

/-- A quotient in the step from `s * 2 ^ e` is rounded to its lower end if it is in the lower half,
and to its upper end if it is in the upper half; `t` is the end. -/
theorem rankOfRatio_of_step {num den s t e : Nat} (hden : 0 < den) (hs : e = 0 ∨ 2 ^ 52 ≤ s)
    (low : s * (den * 2 ^ e) ≤ num) (high : num < 2 ^ 53 * (den * 2 ^ e))
    (lowHalf : 2 * (t * (den * 2 ^ e)) ≤ 2 * num + den * 2 ^ e)
    (highHalf : 2 * num ≤ 2 * (t * (den * 2 ^ e)) + den * 2 ^ e)
    (odd : t % 2 = 1 → 2 * (t * (den * 2 ^ e)) < 2 * num + den * 2 ^ e ∧
      2 * num < 2 * (t * (den * 2 ^ e)) + den * 2 ^ e)
    (hrank : e * 2 ^ 52 + t ≤ infinityRank) :
    rankOfRatio num den = e * 2 ^ 52 + t := by
  simp only [rankOfRatio, scale_eq hden hs low high]
  rw [roundHalfEven_eq (Nat.mul_pos hden (Nat.two_pow_pos e)) lowHalf highHalf odd,
    Nat.min_eq_left hrank]

variable {rank num den : Nat}

/-- A quotient between the middles below and above a rank is rounded to that rank. -/
theorem rankOfRatio_eq (hpos : 0 < rank) (hfin : rank < infinityRank) (hden : 0 < den)
    (low : (units (rank - 1) + units rank) * den ≤ 2 * num)
    (high : 2 * num ≤ (units rank + units (rank + 1)) * den)
    (odd : rank % 2 = 1 → (units (rank - 1) + units rank) * den < 2 * num ∧
      2 * num < (units rank + units (rank + 1)) * den) :
    rankOfRatio num den = rank := by
  by_cases hnum : num < units rank * den
  · -- below the magnitude, in the step from the rank before
    obtain ⟨rank, rfl⟩ : ∃ r, rank = r + 1 := ⟨rank - 1, by omega⟩
    simp only [Nat.add_sub_cancel] at low odd
    have hrank := exponent_mul_add_significand rank
    have hlt := significand_lt rank
    have hle := le_significand rank
    have hunit := Nat.mul_pos hden (Nat.two_pow_pos (exponent rank))
    rw [Nat.add_mul, units_mul, units_succ_mul] at low odd
    rw [units_succ_mul] at hnum
    have htop := Nat.mul_le_mul_right (den * 2 ^ exponent rank)
      (show significand rank + 1 ≤ 2 ^ 53 by omega)
    rw [rankOfRatio_of_step (t := significand rank + 1) hden hle, ← Nat.add_assoc, hrank]
    all_goals generalize den * 2 ^ exponent rank = u at *
    all_goals rw [Nat.add_mul] at *
    all_goals omega
  · -- from the magnitude on, in the step of the rank itself
    have hrank := exponent_mul_add_significand rank
    have hlt := significand_lt rank
    have hle := le_significand rank
    have hunit := Nat.mul_pos hden (Nat.two_pow_pos (exponent rank))
    replace odd := fun h => (odd h).2
    rw [Nat.add_mul _ _ den, units_mul, units_succ_mul] at high odd
    rw [units_mul] at hnum
    have htop := Nat.mul_le_mul_right (den * 2 ^ exponent rank)
      (show significand rank + 1 ≤ 2 ^ 53 by omega)
    rw [rankOfRatio_of_step (t := significand rank) hden hle, hrank]
    all_goals generalize den * 2 ^ exponent rank = u at *
    all_goals rw [Nat.add_mul] at *
    all_goals omega

/-- A magnitude is rounded to its own rank. -/
theorem rankOfRatio_units (hfin : rank < infinityRank) (hden : 0 < den) :
    rankOfRatio (units rank * den) den = rank := by
  rcases Nat.eq_zero_or_pos rank with rfl | hpos
  · simp [rankOfRatio, units, significand, roundHalfEven]
  · obtain ⟨rank, rfl⟩ : ∃ r, rank = r + 1 := ⟨rank - 1, by omega⟩
    have hbelow := Nat.mul_lt_mul_of_pos_right (units_lt_units_succ rank) hden
    have habove := Nat.mul_lt_mul_of_pos_right (units_lt_units_succ (rank + 1)) hden
    refine rankOfRatio_eq hpos hfin hden ?_ ?_ fun _ => ⟨?_, ?_⟩ <;>
    · simp only [Nat.add_mul, Nat.add_sub_cancel]
      omega

/-! ## Finite ranks -/

theorem roundHalfEven_le (num den : Nat) : roundHalfEven num den ≤ num / den + 1 := by
  simp only [roundHalfEven]
  split
  · omega
  · split <;> omega

/-- A bound on the magnitude is one on the rank. -/
theorem rankOfRatio_le_of_lt {num e : Nat} (h : num < 2 ^ (53 + e)) :
    rankOfRatio num 1 ≤ e * 2 ^ 52 + 2 ^ 53 := by
  simp only [rankOfRatio, Nat.div_one, Nat.one_mul]
  have hscale : num.log2 - 52 ≤ e := by
    by_cases h0 : num = 0
    · simp [h0]
    · have := (Nat.log2_lt h0).2 h
      omega
  have hsignificand : num / 2 ^ (num.log2 - 52) < 2 ^ 53 := by
    rw [Nat.div_lt_iff_lt_mul (Nat.two_pow_pos _), ← Nat.pow_add]
    exact Nat.lt_of_lt_of_le Nat.lt_log2_self (Nat.pow_le_pow_right (by decide) (by omega))
  have hround := roundHalfEven_le num (2 ^ (num.log2 - 52))
  have := Nat.mul_le_mul_right (2 ^ 52) hscale
  omega

theorem isNaN_eq_false {x : Binary64} (h : x.isFinite = true) : x.isNaN = false := by
  simp only [isFinite, isNaN, decide_eq_true_eq, decide_eq_false_iff_not] at *
  omega

theorem isFinite_ofRatio {negative : Bool} {n : Nat} (h : n ≤ 2 ^ 63) :
    (ofRatio negative (n * unitsPerOne) 1).isFinite = true := by
  have hnum : ∀ k, n * 2 ^ k < 2 ^ (53 + (11 + k)) := by
    intro k
    rw [show 53 + (11 + k) = 64 + k by omega, Nat.pow_add]
    exact Nat.mul_lt_mul_of_pos_right (Nat.lt_of_le_of_lt h (by decide)) (Nat.two_pow_pos _)
  have hle := rankOfRatio_le_of_lt (hnum 1074)
  have hlt : (11 + 1074) * 2 ^ 52 + 2 ^ 53 < infinityRank := by decide
  rw [isFinite, decide_eq_true_eq, ofRatio, unitsPerOne]
  exact Nat.lt_of_le_of_lt hle hlt

/-- An integer of 64 bits is finite. -/
theorem isFinite_ofInt (i : Int64) : (ofInt i.toInt).isFinite = true := by
  have hle := Int64.le_toInt i
  have hlt := Int64.toInt_lt i
  exact isFinite_ofRatio (by omega)

end MapExpr.Binary64
