import MapExpr.Proofs.Number.Numeral

/-!
# Whole numbers

A numeral without a point is read as an integer if it is in the range of 64 bits.

* `Decimal.numerator`: the coefficient of a decimal with its sign;
* `Decimal.Integer.ofText?_of_whole`: how a numeral without a point is read in both ways.
-/

namespace MapExpr.Decimal

/-- The coefficient with its sign: the value of a decimal without places. -/
def numerator (d : Decimal) : Int :=
  if d.negative then -d.coefficient else d.coefficient

theorem magnitude?_of_whole {negative : Bool} {s : List Char} {d : Decimal} (hs : '.' ∉ s)
    (h : magnitude? negative s = some d) :
    d = ⟨negative, natOfDigits s, 0⟩ ∧ s ≠ [] ∧ s.all Char.isDigit = true := by
  have hcut : s.takeWhile Char.isDigit ++ s.dropWhile Char.isDigit = s :=
    List.takeWhile_append_dropWhile
  simp only [magnitude?] at h
  split at h
  · rename_i hrest
    rw [hrest, List.append_nil] at hcut
    rw [hcut, Option.ite_none_left_eq_some, Option.some.injEq] at h
    obtain ⟨hne, rfl⟩ := h
    exact ⟨rfl, hne, by rw [← hcut]; exact List.all_takeWhile⟩
  · rename_i fraction hrest
    refine absurd ?_ hs
    rw [← hcut, hrest]
    simp
  · cases h

/-- A numeral without a point has digits alone after its sign, and no places. -/
theorem eq_of_whole {x : String} {d : Decimal} (hx : x.contains '.' = false)
    (h : ofText? x = some d) : d = ⟨(sign x.toList).1, natOfDigits (sign x.toList).2, 0⟩ ∧
      (sign x.toList).2 ≠ [] ∧ (sign x.toList).2.all Char.isDigit = true := by
  rw [String.contains_char_eq, decide_eq_false_iff_not] at hx
  refine magnitude?_of_whole (fun hmem => hx ?_) h
  unfold sign at hmem
  split at hmem
  · rename_i s' hs
    rw [hs]
    exact List.mem_cons_of_mem _ hmem
  · exact hmem

theorem Integer.ofText?_of_whole {x : String} {d : Decimal} (hx : x.contains '.' = false)
    (h : Decimal.ofText? x = some d) : Integer.ofText? x =
      if InRange d.numerator then some (.ofInt d.numerator) else none := by
  obtain ⟨rfl, hne, hdigits⟩ := eq_of_whole hx h
  simp only [Integer.ofText?, numerator, hne, hdigits, ne_eq, not_false_eq_true, true_and]

end MapExpr.Decimal
