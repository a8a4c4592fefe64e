import Mathlib.Logic.Relation
import MapExpr.Proofs.Expr.WellFormed

/-!
# Nodes

Every place of a tree, and what a well-formed tree has there: which operands an operator may have,
how many, and which names, literals and numbers may stand at the leaves.

* `Node`, `Node.parts`, `Node.Inside`: the nodes of a tree;
* `Node.IsSound`: what holds of a node and the ones directly in it;
* `Node.isSound_of_inside`: every node of a well-formed tree without a not-a-number is sound.
-/

namespace MapExpr

/-- What stands at a place of a tree. -/
inductive Node
  | expr (e : Expr)
  | call (c : Call)
  | selector (s : Selector)
  | step (s : Step)
  | predicate (p : Predicate)
  | filter (f : Filter)

namespace Node

/-- The nodes directly in a node. -/
def parts : Node → List Node
  | .expr (.constant _) | .expr (.variableRef _) => []
  | .expr (.call c) => [.call c]
  | .expr (.group e) => [.expr e]
  | .expr (.selector s) => [.selector s]
  | .expr (.or es) | .expr (.and es) => es.map .expr
  | .expr (.comparison _ e f) => [.expr e, .expr f]
  | .expr (.additive e es) => .expr e :: es.map fun x => .expr x.2
  | .expr (.multiplicative e es) => .expr e :: es.map fun x => .expr x.2
  | .expr (.union ss) => ss.map .selector
  | .call (.mk _ _ es) => es.map .expr
  | .selector (.steps _ ss) => ss.map .step
  | .selector (.scoped s) => [.selector s]
  | .step .parent | .step .current => []
  | .step (.named _ _ p) => [.predicate p]
  | .predicate .absent | .predicate (.index _) => []
  | .predicate (.filter f) | .predicate (.filterThenIndex f _) => [.filter f]
  | .filter .empty => []
  | .filter (.call c) => [.call c]
  | .filter (.selector s) => [.selector s]
  | .filter (.operator e) => [.expr e]

/-- The node `x` is the node `y` or stands somewhere in it. -/
def Inside (x y : Node) : Prop :=
  Relation.ReflTransGen (fun x y => x ∈ y.parts) x y

/-- What holds of a node in every tree that is handed out. -/
def IsSound : Node → Prop
  | .expr (.constant (.number x)) => x.isNaN = false
  | .expr (.constant .system) => True
  | .expr (.constant (.literal s)) => ¬ (s.contains '\x27' = true ∧ s.contains '"' = true)
  | .expr (.variableRef x) => Name.isFree x = true
  | .expr (.call _) | .expr (.group _) | .expr (.selector _) => True
  | .expr (.or es) => 2 ≤ es.length ∧ ∀ e ∈ es, e.kindName ∉ ["or", "union"]
  | .expr (.and es) => 2 ≤ es.length ∧ ∀ e ∈ es, e.kindName ∉ ["or", "and", "union"]
  | .expr (.comparison _ e f) =>
    ∀ x ∈ [e, f], x.kindName ∉ ["or", "and", "comparison", "union"]
  | .expr (.additive e es) => es ≠ [] ∧
    ∀ f ∈ e :: es.map Prod.snd, f.kindName ∉ ["or", "and", "comparison", "additive", "union"]
  | .expr (.multiplicative e es) => es ≠ [] ∧ ∀ f ∈ e :: es.map Prod.snd,
    f.kindName ∈ ["constant", "variable", "function call", "group", "selector"]
  | .expr (.union ss) => 2 ≤ ss.length
  | .call (.mk _ x _) => Name.isFree x = true
  | .selector (.steps _ ss) => ss ≠ []
  | .selector (.scoped _) => True
  | .step .parent | .step .current => True
  | .step (.named _ x _) => (∀ q, x.qualifier = some q → Name.isFree q = true) ∧
    ∀ y, x.localName = .name y → Name.isFree y = true
  | .predicate _ => True
  | .filter (.operator e) => e.kindName ∉ ["function call", "selector"]
  | .filter _ => True

def isWellFormed : Node → Bool
  | .expr e => e.isWellFormed
  | .call c => c.isWellFormed
  | .selector s => s.isWellFormed
  | .step s => s.isWellFormed
  | .predicate p => p.isWellFormed
  | .filter f => f.isWellFormed

def numbers : Node → List Binary64
  | .expr e => e.numbers
  | .call c => c.numbers
  | .selector s => s.numbers
  | .step s => s.numbers
  | .predicate p => p.numbers
  | .filter f => f.numbers

end Node

/-! ## Lists -/

theorem Expr.allWellFormed_iff {least : Nat} {es : List Expr} :
    Expr.allWellFormed least es = true ↔
      ∀ e ∈ es, least ≤ e.strength ∧ e.isWellFormed = true := by
  induction es <;> simp_all [Expr.allWellFormed]

theorem Expr.sumsWellFormed_iff {es : List (AdditiveOp × Expr)} :
    Expr.sumsWellFormed es = true ↔ ∀ x ∈ es, 5 ≤ x.2.strength ∧ x.2.isWellFormed = true := by
  induction es <;> simp_all [Expr.sumsWellFormed]

theorem Expr.productsWellFormed_iff {es : List (MultiplicativeOp × Expr)} :
    Expr.productsWellFormed es = true ↔ ∀ x ∈ es, 6 ≤ x.2.strength ∧ x.2.isWellFormed = true := by
  induction es <;> simp_all [Expr.productsWellFormed]

theorem Selector.allWellFormed_iff {ss : List Selector} :
    Selector.allWellFormed ss = true ↔ ∀ s ∈ ss, s.isWellFormed = true := by
  induction ss <;> simp_all [Selector.allWellFormed]

theorem Step.allWellFormed_iff {ss : List Step} :
    Step.allWellFormed ss = true ↔ ∀ s ∈ ss, s.isWellFormed = true := by
  induction ss <;> simp_all [Step.allWellFormed]

theorem Expr.allNumbers_eq_flatMap (es : List Expr) :
    Expr.allNumbers es = es.flatMap Expr.numbers := by
  induction es <;> simp_all [Expr.allNumbers]

theorem Expr.sumNumbers_eq_flatMap (es : List (AdditiveOp × Expr)) :
    Expr.sumNumbers es = es.flatMap fun x => x.2.numbers := by
  induction es <;> simp_all [Expr.sumNumbers]

theorem Expr.productNumbers_eq_flatMap (es : List (MultiplicativeOp × Expr)) :
    Expr.productNumbers es = es.flatMap fun x => x.2.numbers := by
  induction es <;> simp_all [Expr.productNumbers]

theorem Selector.allNumbers_eq_flatMap (ss : List Selector) :
    Selector.allNumbers ss = ss.flatMap Selector.numbers := by
  induction ss <;> simp_all [Selector.allNumbers]

theorem Step.allNumbers_eq_flatMap (ss : List Step) :
    Step.allNumbers ss = ss.flatMap Step.numbers := by
  induction ss <;> simp_all [Step.allNumbers]

/-! ## Kinds of operands -/

namespace Expr

variable {e : Expr}

/-- The strength of the expressions of a kind, which is told by its name. -/
def strengthOf : String → Nat
  | "union" => 0
  | "or" => 1
  | "and" => 2
  | "comparison" => 3
  | "additive" => 4
  | "multiplicative" => 5
  | _ => 6

theorem strengthOf_kindName (e : Expr) : strengthOf e.kindName = e.strength := by
  cases e <;> rfl

/-- An expression that is strong enough is of none of the weaker kinds. -/
theorem kindName_notMem {n : Nat} {kinds : List String} (h : n ≤ e.strength)
    (hkinds : ∀ k ∈ kinds, strengthOf k < n) : e.kindName ∉ kinds := by
  intro hmem
  have hlt := hkinds _ hmem
  rw [strengthOf_kindName] at hlt
  omega

theorem kindName_of_six_le (h : 6 ≤ e.strength) :
    e.kindName ∈ ["constant", "variable", "function call", "group", "selector"] := by
  cases e <;> simp_all [kindName, strength]

theorem kindName_of_isBare_eq_false (h : e.isBare = false) :
    e.kindName ∉ ["function call", "selector"] := by
  cases e <;> simp_all [kindName, isBare]

end Expr

/-! ## Nodes of well-formed trees -/

namespace Node

variable {x y : Node}

/-- The nodes in a well-formed one are well formed. -/
theorem isWellFormed_of_mem_parts (hx : x ∈ y.parts) (hy : y.isWellFormed = true) :
    x.isWellFormed = true := by
  rcases y with (_ | _ | _ | _ | _ | es | es | ⟨o, e, f⟩ | ⟨e, es⟩ | ⟨e, es⟩ | ss) | ⟨o, n, es⟩ |
    (⟨a, ss⟩ | s) | (_ | _ | ⟨a, n, p⟩) | (_ | _ | _ | _) | (_ | _ | _ | _)
  all_goals simp only [parts, isWellFormed, Expr.isWellFormed, Expr.allWellFormed_iff,
    Expr.sumsWellFormed_iff, Expr.productsWellFormed_iff, Selector.allWellFormed_iff,
    Call.isWellFormed, Selector.isWellFormed, Step.allWellFormed_iff, Step.isWellFormed,
    Predicate.isWellFormed, Filter.isWellFormed, Bool.and_eq_true, List.mem_cons, List.mem_map,
    List.not_mem_nil, or_false] at hx hy
  -- what is left is that `x` is one of the parts, each of which is well formed
  all_goals grind [isWellFormed]

/-- The numbers in the parts of a node are numbers of the node. -/
theorem numbers_of_mem_parts (hx : x ∈ y.parts) : x.numbers ⊆ y.numbers := by
  rcases y with (_ | _ | _ | _ | _ | es | es | ⟨o, e, f⟩ | ⟨e, es⟩ | ⟨e, es⟩ | ss) | ⟨o, n, es⟩ |
    (⟨a, ss⟩ | s) | (_ | _ | ⟨a, n, p⟩) | (_ | _ | _ | _) | (_ | _ | _ | _)
  all_goals intro n hn
  all_goals simp only [parts, numbers, Expr.numbers, Expr.allNumbers_eq_flatMap,
    Expr.sumNumbers_eq_flatMap, Expr.productNumbers_eq_flatMap, Selector.allNumbers_eq_flatMap,
    Step.allNumbers_eq_flatMap, Call.numbers, Selector.numbers, Step.numbers, Predicate.numbers,
    Filter.numbers, List.mem_cons, List.mem_map, List.mem_append, List.mem_flatMap,
    List.not_mem_nil, or_false] at hx ⊢
  all_goals grind [numbers]

theorem isSound_expr {e : Expr} (h : e.isWellFormed = true)
    (hnumbers : ∀ n ∈ e.numbers, n.isNaN = false) : IsSound (.expr e) := by
  cases e with
  | constant c =>
    cases c with
    | number n => exact hnumbers n (by simp [Expr.numbers, Constant.numbers])
    | system => trivial
    | literal s =>
      simp only [Expr.isWellFormed, Constant.isWellFormed, Bool.not_eq_true',
        Bool.and_eq_false_iff] at h
      rintro ⟨hsingle, hdouble⟩
      simp_all
  | variableRef x => exact h
  | call c => trivial
  | group e => trivial
  | selector s => trivial
  | or es =>
    simp only [Expr.isWellFormed, Bool.and_eq_true, decide_eq_true_eq, Expr.allWellFormed_iff] at h
    exact ⟨h.1, fun e he => Expr.kindName_notMem (h.2 e he).1 (by decide)⟩
  | and es =>
    simp only [Expr.isWellFormed, Bool.and_eq_true, decide_eq_true_eq, Expr.allWellFormed_iff] at h
    exact ⟨h.1, fun e he => Expr.kindName_notMem (h.2 e he).1 (by decide)⟩
  | comparison op e f =>
    simp only [Expr.isWellFormed, Bool.and_eq_true, decide_eq_true_eq] at h
    exact List.forall_mem_cons.2 ⟨Expr.kindName_notMem h.1.1 (by decide),
      List.forall_mem_singleton.2 (Expr.kindName_notMem h.2.1 (by decide))⟩
  | additive e es =>
    simp only [Expr.isWellFormed, Bool.and_eq_true, decide_eq_true_eq, Expr.sumsWellFormed_iff,
      Bool.not_eq_true', List.isEmpty_eq_false_iff] at h
    exact ⟨h.1, List.forall_mem_cons.2 ⟨Expr.kindName_notMem h.2.1.1 (by decide),
      List.forall_mem_map.2 fun x hx => Expr.kindName_notMem (h.2.2 x hx).1 (by decide)⟩⟩
  | multiplicative e es =>
    simp only [Expr.isWellFormed, Bool.and_eq_true, decide_eq_true_eq, Expr.productsWellFormed_iff,
      Bool.not_eq_true', List.isEmpty_eq_false_iff] at h
    exact ⟨h.1, List.forall_mem_cons.2 ⟨Expr.kindName_of_six_le h.2.1.1,
      List.forall_mem_map.2 fun x hx => Expr.kindName_of_six_le (h.2.2 x hx).1⟩⟩
  | union ss =>
    simp only [Expr.isWellFormed, Bool.and_eq_true, decide_eq_true_eq] at h
    exact h.1

theorem isSound_step {s : Step} (h : s.isWellFormed = true) : IsSound (.step s) := by
  cases s with
  | parent => trivial
  | current => trivial
  | named isAttribute x p =>
    obtain ⟨qualifier, localName⟩ := x
    simp only [Step.isWellFormed, QName.isWellFormed, Bool.and_eq_true] at h
    refine ⟨fun q hq => ?_, fun y hy => ?_⟩
    · obtain rfl : qualifier = some q := hq
      exact h.1.1
    · obtain rfl : localName = .name y := hy
      exact h.1.2

/-- A well-formed node without a not-a-number is sound. -/
theorem isSound_of_isWellFormed (h : x.isWellFormed = true)
    (hnumbers : ∀ n ∈ x.numbers, n.isNaN = false) : x.IsSound := by
  cases x with
  | expr e => exact isSound_expr h hnumbers
  | call c =>
    obtain ⟨withDollar, x, es⟩ := c
    simp only [isWellFormed, Call.isWellFormed, Bool.and_eq_true] at h
    exact h.1
  | selector s =>
    cases s with
    | steps absolute ss =>
      simp only [isWellFormed, Selector.isWellFormed, Bool.and_eq_true, Bool.not_eq_true',
        List.isEmpty_eq_false_iff] at h
      exact h.1
    | _ => trivial
  | step s => exact isSound_step h
  | predicate p => trivial
  | filter f =>
    cases f with
    | operator e =>
      simp only [isWellFormed, Filter.isWellFormed, Bool.and_eq_true, Bool.not_eq_true'] at h
      exact Expr.kindName_of_isBare_eq_false h.1
    | _ => trivial

/-- Every node of a well-formed tree without a not-a-number is sound. -/
theorem isSound_of_inside (hx : x.Inside y) (hy : y.isWellFormed = true)
    (hnumbers : ∀ n ∈ y.numbers, n.isNaN = false) : x.IsSound := by
  have hparts : x.isWellFormed = true ∧ x.numbers ⊆ y.numbers := by
    induction hx using Relation.ReflTransGen.head_induction_on with
    | refl => exact ⟨hy, List.Subset.refl _⟩
    | head hpart _ ih =>
      exact ⟨isWellFormed_of_mem_parts hpart ih.1,
        List.Subset.trans (numbers_of_mem_parts hpart) ih.2⟩
  exact isSound_of_isWellFormed hparts.1 fun n hn => hnumbers n (hparts.2 hn)

end Node

end MapExpr
