import MapExpr.Proofs.Expr.Nodes
import MapExpr.Proofs.RoundTrip

/-!
# Trees that are handed out

What holds of every tree that a text is parsed as, under whatever limit.

* `isNaN_numbers_of_parse`: no decimal is read as a not-a-number;
* `isSound_of_parse`: all its nodes are sound, and it is the same as itself.
-/

namespace MapExpr

theorem Binary64.isNaN_ofDecimal (d : Decimal) : (ofDecimal d).isNaN = false := by
  have hle : (ofDecimal d).rank ≤ infinityRank := rankOfRatio_le _ _
  exact decide_eq_false (Nat.not_lt.2 hle)

variable {text : String} {settings : Settings} {A : Parsed}

theorem isNaN_numbers_of_parse (h : parse settings text = .ok A) :
    ∀ x ∈ A.root.numbers, x.isNaN = false := by
  obtain ⟨ts, n, -, -, hderives, -⟩ := derives_of_parse h
  exact hderives.forall_numbers (Q := fun _ => True) (fun _ _ => trivial)
    (fun _ _ => Binary64.isNaN_ofDecimal _)
    fun i => Binary64.isNaN_eq_false (Binary64.isFinite_ofInt i)

/-- Every node of a tree that is handed out is sound, and the tree is the same as itself. -/
theorem isSound_of_parse (h : parse settings text = .ok A) :
    (∀ x : Node, x.Inside (.expr A.root) → x.IsSound) ∧ A.root.same A.root = true :=
  ⟨fun _ hx => Node.isSound_of_inside hx (isWellFormed_of_parse h) (isNaN_numbers_of_parse h),
    Expr.same_self_of_isNaN (isNaN_numbers_of_parse h)⟩

theorem scan_conjunction : Token.scan "a and -1" =
    .ok [⟨.identifier, "a", 0⟩, ⟨.andWord, "and", 2⟩, ⟨.number, "-1", 6⟩, .eof 8] := by
  decide +kernel

/-- The conjunction has two operands that may stand in one. -/
theorem isSound_conjunction : ∃ A, parse ⟨1⟩ "a and -1" = .ok A ∧
    Node.IsSound (.expr A.root) ∧ A.root.same A.root = true := by
  have hparse : ∃ A, parse ⟨1⟩ "a and -1" = .ok A := by
    rw [parse_of_scan scan_conjunction]
    exact ⟨_, rfl⟩
  obtain ⟨A, hA⟩ := hparse
  exact ⟨A, hA, (isSound_of_parse hA).1 _ .refl, (isSound_of_parse hA).2⟩

end MapExpr
