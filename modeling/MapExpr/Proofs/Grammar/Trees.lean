import MapExpr.Proofs.Expr.WellFormed
import MapExpr.Proofs.Grammar.Basic
import MapExpr.Proofs.Number.Rounding
import MapExpr.Proofs.Token.Items

/-!
# Trees of derivations

What the tree of a derivation owes to its words.

* `Derives.isWellFormed`: genuine words derive well-formed trees;
* `Derives.forall_numbers`, `Derives.isFinite_numbers`: the numbers of a tree are numbers among the
  words or indexes, so they are finite if the former are;
* `Derives.nesting_cases`: a derivation nests as deeply as its tree, or less deeply if a whole
  number stands in the first of two brackets.
-/

namespace MapExpr

/-- A whole number is all that stands in the first of two brackets. -/
def Word.HasDoubleIndex (ws : List Word) : Prop :=
  ∃ w p q, w.isWhole = true ∧ [w, ⟨.rightBracket, p⟩, ⟨.leftBracket, q⟩] <:+: ws

theorem Word.HasDoubleIndex.append_right {ws : List Word} (h : HasDoubleIndex ws)
    (us : List Word) : HasDoubleIndex (ws ++ us) := by
  obtain ⟨w, p, q, hw, hinfix⟩ := h
  exact ⟨w, p, q, hw, hinfix.trans (List.prefix_append ws us).isInfix⟩

theorem Word.HasDoubleIndex.append_left {us : List Word} (h : HasDoubleIndex us)
    (ws : List Word) : HasDoubleIndex (ws ++ us) := by
  obtain ⟨w, p, q, hw, hinfix⟩ := h
  exact ⟨w, p, q, hw, hinfix.trans (List.suffix_append ws us).isInfix⟩

theorem Word.HasDoubleIndex.cons {ws : List Word} (h : HasDoubleIndex ws) (w : Word) :
    HasDoubleIndex (w :: ws) :=
  h.append_left [w]

/-! ## Bodies of filters -/

theorem Filter.isWellFormed_ofExpr (e : Expr) : (ofExpr e).isWellFormed = e.isWellFormed := by
  cases e <;> simp [ofExpr, isWellFormed, Expr.isWellFormed, Expr.isBare]

theorem Filter.numbers_ofExpr (e : Expr) : (ofExpr e).numbers = e.numbers := by
  cases e <;> simp [ofExpr, numbers, Expr.numbers]

theorem Filter.nesting_ofExpr (e : Expr) : (ofExpr e).nesting = e.nesting + Parse.filterCost := by
  cases e <;> simp [ofExpr, nesting, Expr.nesting]

namespace Grammar

/-- The tree of a category is well formed, and bound as tightly as the category says. -/
def Category.IsWellFormed : (c : Category) → c.Tree → Prop
  | .expression, e => e.isWellFormed = true
  | .phrase ℓ, e => ℓ.strength ≤ e.strength ∧ e.isWellFormed = true
  | .disjuncts, es => Expr.allWellFormed 2 es = true
  | .conjuncts, es => Expr.allWellFormed 3 es = true
  | .terms, (e, es) => (5 ≤ e.strength ∧ e.isWellFormed = true) ∧ Expr.sumsWellFormed es = true
  | .factors, (e, es) =>
    (6 ≤ e.strength ∧ e.isWellFormed = true) ∧ Expr.productsWellFormed es = true
  | .arguments, es => Expr.allWellFormed 0 es = true
  | .selector, s => s.isWellFormed = true
  | .members, ss => Selector.allWellFormed ss = true
  | .steps, ts => ts ≠ [] ∧ Step.allWellFormed ts = true
  | .step, t => t.isWellFormed = true
  | .name, x => x.isWellFormed = true
  | .predicate, p => p.isWellFormed = true
  | .filter, f => f.isWellFormed = true

/-- The numbers of the tree of a category. -/
def Category.numbers : (c : Category) → c.Tree → List Binary64
  | .expression, e | .phrase _, e => e.numbers
  | .disjuncts, es | .conjuncts, es | .arguments, es => Expr.allNumbers es
  | .terms, (e, es) => e.numbers ++ Expr.sumNumbers es
  | .factors, (e, es) => e.numbers ++ Expr.productNumbers es
  | .selector, s => s.numbers
  | .members, ss => Selector.allNumbers ss
  | .steps, ts => Step.allNumbers ts
  | .step, t => t.numbers
  | .name, _ => []
  | .predicate, p => p.numbers
  | .filter, f => f.numbers

/-- The nesting of the tree of a category. -/
def Category.nesting : (c : Category) → c.Tree → Nat
  | .expression, e | .phrase _, e => e.nesting
  | .disjuncts, es | .conjuncts, es => Expr.allNesting es
  | .arguments, es => Expr.argumentNesting es
  | .terms, (e, es) => max e.nesting (Expr.sumNesting es)
  | .factors, (e, es) => max e.nesting (Expr.productNesting es)
  | .selector, s => s.nesting
  | .members, ss => Selector.allNesting ss
  | .steps, ts => Step.allNesting ts
  | .step, t => t.nesting
  | .name, _ => 0
  | .predicate, p => p.nesting
  | .filter, f => f.nesting

variable {c : Category} {ws : List Word} {t : c.Tree} {n : Nat}

theorem Derives.isWellFormed (h : Derives c ws t n) (hws : ∀ w ∈ ws, w.IsGenuine) :
    c.IsWellFormed t := by
  induction h
  case lift hk _ ih => exact ⟨Nat.le_trans hk (ih hws).1, (ih hws).2⟩
  case doubleIndex => rfl
  all_goals simp_all [Category.IsWellFormed, Expr.isWellFormed, Expr.allWellFormed,
    Expr.sumsWellFormed, Expr.productsWellFormed, Constant.isWellFormed, Call.isWellFormed,
    Selector.isWellFormed, Selector.allWellFormed, Step.isWellFormed, Step.allWellFormed,
    Predicate.isWellFormed, Filter.isWellFormed, QName.isWellFormed, LocalName.isWellFormed,
    Filter.isWellFormed_ofExpr, or_imp, forall_and]

/-- The numbers of a tree are numbers among the words or indexes. -/
theorem Derives.forall_numbers {P : Binary64 → Prop} {Q : Word → Prop} (h : Derives c ws t n)
    (hws : ∀ w ∈ ws, Q w)
    (hnumber : ∀ {x d}, Q ⟨.number, x⟩ → Decimal.ofText? x = some d → P (.ofDecimal d))
    (hindex : ∀ i : Index, P (.ofInt i.toInt)) : ∀ x ∈ c.numbers t, P x := by
  induction h
  case number d hd =>
    simpa [Category.numbers, Expr.numbers, Constant.numbers] using
      hnumber (hws _ (List.mem_singleton_self _)) hd
  case doubleIndex i _ _ _ =>
    -- the index is the number of the filter
    simpa [Category.numbers, Predicate.numbers, Filter.numbers, Expr.numbers, Constant.numbers]
      using hindex i
  all_goals simp_all [Category.numbers, Expr.numbers, Expr.allNumbers, Expr.sumNumbers,
    Expr.productNumbers, Constant.numbers, Call.numbers, Selector.numbers, Selector.allNumbers,
    Step.numbers, Step.allNumbers, Predicate.numbers, Filter.numbers, Filter.numbers_ofExpr,
    or_imp, forall_and]

theorem Derives.isFinite_numbers (h : Derives c ws t n) (hws : ∀ w ∈ ws, w.IsFinite) :
    ∀ x ∈ c.numbers t, x.isFinite = true :=
  h.forall_numbers hws (fun hw hd => hw _ rfl hd) Binary64.isFinite_ofInt

/-- Only an index before a second bracket nests less deeply than the filter that it stands for. -/
theorem Derives.nesting_cases (h : Derives c ws t n) :
    n = c.nesting t ∨ n < c.nesting t ∧ Word.HasDoubleIndex ws := by
  induction h
  case doubleIndex p x q r y u i j hi hj =>
    exact .inr ⟨show 0 < Parse.filterCost by decide, ⟨.number, x⟩, q, r,
      Word.isWhole_of_ofText? hi, [⟨.leftBracket, p⟩], [⟨.number, y⟩, ⟨.rightBracket, u⟩], rfl⟩
  -- every other rule nests as its tree does, with the nesting of its parts
  all_goals grind [Category.nesting, Expr.nesting, Expr.allNesting, Expr.sumNesting,
    Expr.productNesting, Expr.argumentNesting, Call.nesting, Selector.nesting, Selector.allNesting,
    Step.nesting, Step.allNesting, Predicate.nesting, Filter.nesting, Filter.nesting_ofExpr,
    Expr.allNesting_append, Expr.sumNesting_append, Expr.productNesting_append,
    Expr.argumentNesting_append, Selector.allNesting_append, Step.allNesting_append,
    ← Word.HasDoubleIndex.append_left, ← Word.HasDoubleIndex.append_right,
    ← Word.HasDoubleIndex.cons]

end Grammar

end MapExpr
