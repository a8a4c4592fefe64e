import MapExpr.Expr.Equality
import MapExpr.Proofs.Expr.WellFormed
import MapExpr.Proofs.Number.Rounding

/-!
# Numbers and equality

Whether an expression is the same as itself hangs on its numbers, and two that are the same have
numbers of equal magnitudes one by one.

* `Expr.same_self_of_isNaN`, `Expr.same_self`: an expression without a not-a-number is the same as
  itself, and so is one with finite numbers;
* `Expr.ranks_of_same`: the ranks of the numbers of two expressions that are the same.
-/

namespace MapExpr

namespace Binary64

theorem equals_self {x : Binary64} (h : x.isNaN = false) : x.equals x = true := by
  simp [equals, h]

theorem rank_of_equals {x y : Binary64} (h : x.equals y = true) : x.rank = y.rank := by
  simp only [equals, Bool.and_eq_true, beq_iff_eq] at h
  exact h.2.1

/-- The ranks of some numbers. -/
def ranks (xs : List Binary64) : List Nat :=
  xs.map rank

@[simp] theorem ranks_append (xs ys : List Binary64) : ranks (xs ++ ys) = ranks xs ++ ranks ys :=
  List.map_append

/-- Numbers of equal ranks are finite together. -/
theorem isFinite_of_ranks_eq {xs ys : List Binary64} (h : ranks xs = ranks ys)
    (hys : ∀ y ∈ ys, y.isFinite = true) : ∀ x ∈ xs, x.isFinite = true := by
  intro x hx
  have hmem : x.rank ∈ ranks ys := h ▸ List.mem_map_of_mem hx
  obtain ⟨y, hy, hrank⟩ := List.mem_map.1 hmem
  simpa only [isFinite, hrank] using hys y hy

end Binary64

/-! ## An expression and itself -/

theorem Constant.same_self {c : Constant} (h : ∀ x ∈ c.numbers, x.isNaN = false) :
    c.same c = true := by
  cases c with
  | number x => exact Binary64.equals_self (h x (List.mem_singleton_self x))
  | system => rfl
  | literal s => simp [same]

mutual

theorem Expr.same_self_of_isNaN : ∀ {e : Expr}, (∀ x ∈ e.numbers, x.isNaN = false) → e.same e = true
  | .constant c, h => by
    simp only [Expr.numbers] at h
    simp [Expr.same, Constant.same_self h]
  | .variableRef x, _ => by simp [Expr.same]
  | .call c, h => by
    simp only [Expr.numbers] at h
    simp [Expr.same, Call.same_self h]
  | .group e, h => by
    simp only [Expr.numbers] at h
    simp [Expr.same, Expr.same_self_of_isNaN h]
  | .selector s, h => by
    simp only [Expr.numbers] at h
    simp [Expr.same, Selector.same_self h]
  | .or es, h => by
    simp only [Expr.numbers] at h
    simp [Expr.same, Expr.sameAll_self h]
  | .and es, h => by
    simp only [Expr.numbers] at h
    simp [Expr.same, Expr.sameAll_self h]
  | .comparison o e f, h => by
    simp only [Expr.numbers, List.forall_mem_append] at h
    simp [Expr.same, Expr.same_self_of_isNaN h.1, Expr.same_self_of_isNaN h.2]
  | .additive e es, h => by
    simp only [Expr.numbers, List.forall_mem_append] at h
    simp [Expr.same, Expr.same_self_of_isNaN h.1, Expr.sameSums_self h.2]
  | .multiplicative e es, h => by
    simp only [Expr.numbers, List.forall_mem_append] at h
    simp [Expr.same, Expr.same_self_of_isNaN h.1, Expr.sameProducts_self h.2]
  | .union ss, h => by
    simp only [Expr.numbers] at h
    simp [Expr.same, Selector.sameAll_self h]

theorem Expr.sameAll_self : ∀ {es : List Expr},
    (∀ x ∈ Expr.allNumbers es, x.isNaN = false) → Expr.sameAll es es = true
  | [], _ => by simp [Expr.sameAll]
  | e :: es, h => by
    simp only [Expr.allNumbers, List.forall_mem_append] at h
    simp [Expr.sameAll, Expr.same_self_of_isNaN h.1, Expr.sameAll_self h.2]

theorem Expr.sameSums_self : ∀ {es : List (AdditiveOp × Expr)},
    (∀ x ∈ Expr.sumNumbers es, x.isNaN = false) → Expr.sameSums es es = true
  | [], _ => by simp [Expr.sameSums]
  | (o, e) :: es, h => by
    simp only [Expr.sumNumbers, List.forall_mem_append] at h
    simp [Expr.sameSums, Expr.same_self_of_isNaN h.1, Expr.sameSums_self h.2]

theorem Expr.sameProducts_self : ∀ {es : List (MultiplicativeOp × Expr)},
    (∀ x ∈ Expr.productNumbers es, x.isNaN = false) → Expr.sameProducts es es = true
  | [], _ => by simp [Expr.sameProducts]
  | (o, e) :: es, h => by
    simp only [Expr.productNumbers, List.forall_mem_append] at h
    simp [Expr.sameProducts, Expr.same_self_of_isNaN h.1, Expr.sameProducts_self h.2]

theorem Call.same_self : ∀ {c : Call}, (∀ x ∈ c.numbers, x.isNaN = false) → c.same c = true
  | .mk _ _ es, h => by
    simp only [Call.numbers] at h
    simp [Call.same, Expr.sameAll_self h]

theorem Selector.same_self : ∀ {s : Selector}, (∀ x ∈ s.numbers, x.isNaN = false) →
    s.same s = true
  | .steps _ ss, h => by
    simp only [Selector.numbers] at h
    simp [Selector.same, Step.sameAll_self h]
  | .scoped s, h => by
    simp only [Selector.numbers] at h
    simp [Selector.same, Selector.same_self h]

theorem Selector.sameAll_self : ∀ {ss : List Selector},
    (∀ x ∈ Selector.allNumbers ss, x.isNaN = false) → Selector.sameAll ss ss = true
  | [], _ => by simp [Selector.sameAll]
  | s :: ss, h => by
    simp only [Selector.allNumbers, List.forall_mem_append] at h
    simp [Selector.sameAll, Selector.same_self h.1, Selector.sameAll_self h.2]

theorem Step.same_self : ∀ {s : Step}, (∀ x ∈ s.numbers, x.isNaN = false) → s.same s = true
  | .parent, _ => by simp [Step.same]
  | .current, _ => by simp [Step.same]
  | .named _ _ p, h => by
    simp only [Step.numbers] at h
    simp [Step.same, Predicate.same_self h]

theorem Step.sameAll_self : ∀ {ss : List Step},
    (∀ x ∈ Step.allNumbers ss, x.isNaN = false) → Step.sameAll ss ss = true
  | [], _ => by simp [Step.sameAll]
  | s :: ss, h => by
    simp only [Step.allNumbers, List.forall_mem_append] at h
    simp [Step.sameAll, Step.same_self h.1, Step.sameAll_self h.2]

theorem Predicate.same_self : ∀ {p : Predicate}, (∀ x ∈ p.numbers, x.isNaN = false) →
    p.same p = true
  | .absent, _ => by simp [Predicate.same]
  | .index i, _ => by simp [Predicate.same]
  | .filter f, h => by
    simp only [Predicate.numbers] at h
    simp [Predicate.same, Filter.same_self h]
  | .filterThenIndex f i, h => by
    simp only [Predicate.numbers] at h
    simp [Predicate.same, Filter.same_self h]

theorem Filter.same_self : ∀ {f : Filter}, (∀ x ∈ f.numbers, x.isNaN = false) →
    f.same f = true
  | .empty, _ => by simp [Filter.same]
  | .call c, h => by
    simp only [Filter.numbers] at h
    simp [Filter.same, Call.same_self h]
  | .selector s, h => by
    simp only [Filter.numbers] at h
    simp [Filter.same, Selector.same_self h]
  | .operator e, h => by
    simp only [Filter.numbers] at h
    simp [Filter.same, Expr.same_self_of_isNaN h]

end

theorem Expr.same_self {e : Expr} (h : ∀ x ∈ e.numbers, x.isFinite = true) : e.same e = true :=
  Expr.same_self_of_isNaN fun x hx => Binary64.isNaN_eq_false (h x hx)

/-! ## Two expressions that are the same -/

open Binary64 (ranks)

theorem Constant.ranks_of_same {c d : Constant} (h : c.same d = true) :
    ranks c.numbers = ranks d.numbers := by
  cases c <;> cases d <;> simp only [same, Bool.false_eq_true] at h
  · simp [numbers, ranks, Binary64.rank_of_equals h]
  · rfl
  · rfl

mutual

theorem Expr.ranks_of_same : ∀ {e f : Expr}, e.same f = true → ranks e.numbers = ranks f.numbers
  | .constant _, f, h => by
    cases f <;> simp only [Expr.same, Bool.false_eq_true] at h
    exact Constant.ranks_of_same h
  | .variableRef _, f, h => by
    cases f <;> simp only [Expr.same, Bool.false_eq_true] at h
    rfl
  | .call _, f, h => by
    cases f <;> simp only [Expr.same, Bool.false_eq_true] at h
    exact Call.ranks_of_same h
  | .group _, f, h => by
    cases f <;> simp only [Expr.same, Bool.false_eq_true] at h
    simpa only [Expr.numbers] using Expr.ranks_of_same h
  | .selector _, f, h => by
    cases f <;> simp only [Expr.same, Bool.false_eq_true] at h
    exact Selector.ranks_of_same h
  | .or _, f, h => by
    cases f <;> simp only [Expr.same, Bool.false_eq_true] at h
    exact Expr.ranks_of_sameAll h
  | .and _, f, h => by
    cases f <;> simp only [Expr.same, Bool.false_eq_true] at h
    exact Expr.ranks_of_sameAll h
  | .comparison _ _ _, f, h => by
    cases f <;> simp only [Expr.same, Bool.and_eq_true, Bool.false_eq_true] at h
    simp [Expr.numbers, Expr.ranks_of_same h.2.1, Expr.ranks_of_same h.2.2]
  | .additive _ _, f, h => by
    cases f <;> simp only [Expr.same, Bool.and_eq_true, Bool.false_eq_true] at h
    simp [Expr.numbers, Expr.ranks_of_same h.1, Expr.ranks_of_sameSums h.2]
  | .multiplicative _ _, f, h => by
    cases f <;> simp only [Expr.same, Bool.and_eq_true, Bool.false_eq_true] at h
    simp [Expr.numbers, Expr.ranks_of_same h.1, Expr.ranks_of_sameProducts h.2]
  | .union _, f, h => by
    cases f <;> simp only [Expr.same, Bool.false_eq_true] at h
    exact Selector.ranks_of_sameAll h

theorem Expr.ranks_of_sameAll : ∀ {es fs : List Expr}, Expr.sameAll es fs = true →
    ranks (Expr.allNumbers es) = ranks (Expr.allNumbers fs)
  | [], fs, h => by
    cases fs <;> simp only [Expr.sameAll, Bool.false_eq_true] at h
    rfl
  | _ :: _, fs, h => by
    cases fs <;> simp only [Expr.sameAll, Bool.and_eq_true, Bool.false_eq_true] at h
    simp [Expr.allNumbers, Expr.ranks_of_same h.1, Expr.ranks_of_sameAll h.2]

theorem Expr.ranks_of_sameSums : ∀ {es fs : List (AdditiveOp × Expr)},
    Expr.sameSums es fs = true → ranks (Expr.sumNumbers es) = ranks (Expr.sumNumbers fs)
  | [], fs, h => by
    cases fs <;> simp only [Expr.sameSums, Bool.false_eq_true] at h
    rfl
  | (_, _) :: _, fs, h => by
    rcases fs with _ | ⟨⟨_, _⟩, _⟩ <;>
      simp only [Expr.sameSums, Bool.and_eq_true, Bool.false_eq_true] at h
    simp [Expr.sumNumbers, Expr.ranks_of_same h.2.1, Expr.ranks_of_sameSums h.2.2]

theorem Expr.ranks_of_sameProducts : ∀ {es fs : List (MultiplicativeOp × Expr)},
    Expr.sameProducts es fs = true →
    ranks (Expr.productNumbers es) = ranks (Expr.productNumbers fs)
  | [], fs, h => by
    cases fs <;> simp only [Expr.sameProducts, Bool.false_eq_true] at h
    rfl
  | (_, _) :: _, fs, h => by
    rcases fs with _ | ⟨⟨_, _⟩, _⟩ <;>
      simp only [Expr.sameProducts, Bool.and_eq_true, Bool.false_eq_true] at h
    simp [Expr.productNumbers, Expr.ranks_of_same h.2.1, Expr.ranks_of_sameProducts h.2.2]

theorem Call.ranks_of_same : ∀ {c d : Call}, c.same d = true → ranks c.numbers = ranks d.numbers
  | .mk _ _ _, .mk _ _ _, h => by
    simp only [Call.same, Bool.and_eq_true] at h
    exact Expr.ranks_of_sameAll h.2.2

theorem Selector.ranks_of_same : ∀ {s t : Selector}, s.same t = true →
    ranks s.numbers = ranks t.numbers
  | .steps _ _, t, h => by
    cases t <;> simp only [Selector.same, Bool.and_eq_true, Bool.false_eq_true] at h
    exact Step.ranks_of_sameAll h.2
  | .scoped _, t, h => by
    cases t <;> simp only [Selector.same, Bool.false_eq_true] at h
    simpa only [Selector.numbers] using Selector.ranks_of_same h

theorem Selector.ranks_of_sameAll : ∀ {ss ts : List Selector}, Selector.sameAll ss ts = true →
    ranks (Selector.allNumbers ss) = ranks (Selector.allNumbers ts)
  | [], ts, h => by
    cases ts <;> simp only [Selector.sameAll, Bool.false_eq_true] at h
    rfl
  | _ :: _, ts, h => by
    cases ts <;> simp only [Selector.sameAll, Bool.and_eq_true, Bool.false_eq_true] at h
    simp [Selector.allNumbers, Selector.ranks_of_same h.1, Selector.ranks_of_sameAll h.2]

theorem Step.ranks_of_same : ∀ {s t : Step}, s.same t = true → ranks s.numbers = ranks t.numbers
  | .parent, t, h => by
    cases t <;> simp only [Step.same, Bool.false_eq_true] at h
    rfl
  | .current, t, h => by
    cases t <;> simp only [Step.same, Bool.false_eq_true] at h
    rfl
  | .named _ _ _, t, h => by
    cases t <;> simp only [Step.same, Bool.and_eq_true, Bool.false_eq_true] at h
    exact Predicate.ranks_of_same h.2.2

theorem Step.ranks_of_sameAll : ∀ {ss ts : List Step}, Step.sameAll ss ts = true →
    ranks (Step.allNumbers ss) = ranks (Step.allNumbers ts)
  | [], ts, h => by
    cases ts <;> simp only [Step.sameAll, Bool.false_eq_true] at h
    rfl
  | _ :: _, ts, h => by
    cases ts <;> simp only [Step.sameAll, Bool.and_eq_true, Bool.false_eq_true] at h
    simp [Step.allNumbers, Step.ranks_of_same h.1, Step.ranks_of_sameAll h.2]

theorem Predicate.ranks_of_same : ∀ {p q : Predicate}, p.same q = true →
    ranks p.numbers = ranks q.numbers
  | .absent, q, h => by
    cases q <;> simp only [Predicate.same, Bool.false_eq_true] at h
    rfl
  | .index _, q, h => by
    cases q <;> simp only [Predicate.same, Bool.false_eq_true] at h
    rfl
  | .filter _, q, h => by
    cases q <;> simp only [Predicate.same, Bool.false_eq_true] at h
    exact Filter.ranks_of_same h
  | .filterThenIndex _ _, q, h => by
    cases q <;> simp only [Predicate.same, Bool.and_eq_true, Bool.false_eq_true] at h
    exact Filter.ranks_of_same h.1

theorem Filter.ranks_of_same : ∀ {f g : Filter}, f.same g = true →
    ranks f.numbers = ranks g.numbers
  | .empty, g, h => by
    cases g <;> simp only [Filter.same, Bool.false_eq_true] at h
    rfl
  | .call _, g, h => by
    cases g <;> simp only [Filter.same, Bool.false_eq_true] at h
    exact Call.ranks_of_same h
  | .selector _, g, h => by
    cases g <;> simp only [Filter.same, Bool.false_eq_true] at h
    exact Selector.ranks_of_same h
  | .operator _, g, h => by
    cases g <;> simp only [Filter.same, Bool.false_eq_true] at h
    exact Expr.ranks_of_same h

end

end MapExpr
