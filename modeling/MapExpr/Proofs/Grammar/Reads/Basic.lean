import MapExpr.Proofs.Grammar.Chains

/-!
# What is read of each category

A text of a category leads from every state in which it may begin to one in which its tree is
complete, exactly if the limit leaves room for its nesting.

* `SelectorBegins`, `StepBegins`, `NameBegins`: the states in which a part of a selector may begin;
* `Category.Reads`: what is read of each category, and from which states.
-/

namespace MapExpr

open Grammar (Category)

namespace Parse

/-! ## States in which a selector or a step begins -/

/-- A selector in the place `hole` may begin in a state. -/
inductive SelectorBegins : State → SelectorHole → Prop
  | due (hole : SelectorHole) : SelectorBegins (.selectorDue hole) hole
  | operand (c : Chain) (hole : ExprHole) : SelectorBegins (.operandDue c hole) (.operand c hole)

/-- A step after the path may begin in a state. -/
inductive StepBegins : State → Path → SelectorHole → Prop
  | due (path : Path) (hole : SelectorHole) : StepBegins (.stepDue path hole) path hole
  | first {s : State} {hole : SelectorHole} : SelectorBegins s hole →
      StepBegins s ⟨false, []⟩ hole

/-- The name of a step may begin in a state. -/
inductive NameBegins : Bool → State → Path → SelectorHole → Prop
  | child {s : State} {path : Path} {hole : SelectorHole} : StepBegins s path hole →
      NameBegins false s path hole
  | attribute (path : Path) (hole : SelectorHole) :
      NameBegins true (.nodeNameDue path hole) path hole

end Parse

open Parse

/-! ## What is read of each category -/

/-- What is read of the words `ws` of a category that stand for a tree and nest `n` deep: they lead
from each state in which they may begin to one in which the tree is complete. -/
def Grammar.Category.Reads : (c : Category) → List Word → c.Tree → Nat → Prop
  | .expression, ws, e, n => ∀ hole : ExprHole,
    Leads hole.depth n 1 (.operandDue .empty hole) ws (.operandDone e .empty hole)
  | .phrase ℓ, ws, e, n => ∀ (c : Chain) (hole : ExprHole), c.Clear ℓ →
    Leads hole.depth n ℓ.strength (.operandDue c hole) ws (.operandDone e c hole)
  | .disjuncts, ws, es, n => ∀ (c : Chain) (hole : ExprHole), c.Clear .or →
    ∃ e before, es = (e :: before).reverse ∧ Leads hole.depth n 2 (.operandDue c hole) ws
      (.operandDone e { c with disjuncts := before } hole)
  | .conjuncts, ws, es, n => ∀ (c : Chain) (hole : ExprHole), c.Clear .and →
    ∃ e before, es = (e :: before).reverse ∧ Leads hole.depth n 3 (.operandDue c hole) ws
      (.operandDone e { c with conjuncts := before } hole)
  | .terms, ws, es, n => ∀ (c : Chain) (hole : ExprHole), c.Clear .additive →
    ∃ e before, Chain.unroll before e [] = es ∧ Leads hole.depth n 5 (.operandDue c hole) ws
      (.operandDone e { c with terms := before } hole)
  | .factors, ws, es, n => ∀ (c : Chain) (hole : ExprHole), c.Clear .multiplicative →
    ∃ e before, Chain.unroll before e [] = es ∧ Leads hole.depth n 6 (.operandDue c hole) ws
      (.operandDone e { c with factors := before } hole)
  | .arguments, ws, es, n => ∀ (withDollar : Bool) (x : String) (c : Chain) (hole : ExprHole),
    ∃ e before, es = (e :: before).reverse ∧
      Leads hole.depth n 1 (.callOpened withDollar x c hole) ws
        (.operandDone e .empty (.argument withDollar x before c hole))
  | .selector, ws, s, n => ∀ (s₀ : State) (hole : SelectorHole), SelectorBegins s₀ hole →
    Leads hole.depth n 7 s₀ ws (.selectorDone s hole)
  | .members, ws, ss, n => ∀ hole : ExprHole, ∃ s₁,
    Leads hole.depth n 7 (.operandDue .empty hole) ws s₁ ∧
      (∀ p, Takes s₁ ⟨.pipe, p⟩ (.selectorDue (.member ss.reverse hole))) ∧
      (2 ≤ ss.length → ∀ limit, Agree limit 1 s₁ (.operandDone (.union ss) .empty hole))
  | .steps, ws, ts, n => ∀ (s₀ : State) (absolute : Bool) (hole : SelectorHole),
    StepBegins s₀ ⟨absolute, []⟩ hole →
    Leads hole.depth n 8 s₀ ws (.stepDone ⟨absolute, ts.reverse⟩ hole)
  | .step, ws, t, n => ∀ (s₀ : State) (path : Path) (hole : SelectorHole),
    StepBegins s₀ path hole → Leads hole.depth n 8 s₀ ws (.stepDone (path.push t) hole)
  | .name, ws, x, n => ∀ (isAttribute : Bool) (s₀ : State) (path : Path) (hole : SelectorHole),
    NameBegins isAttribute s₀ path hole →
    Leads hole.depth n 9 s₀ ws (.stepName ⟨isAttribute, x⟩ path hole)
  | .predicate, ws, p, n => (∀ w ∈ ws.head?, w.kind = .leftBracket) ∧
    ∀ (head : StepHead) (path : Path) (hole : SelectorHole), Leads hole.depth n 8
      (.stepName head path hole) ws (.stepDone (path.push (head.toStep p)) hole)
  | .filter, ws, f, n => ∀ (p : String) (head : StepHead) (path : Path) (hole : SelectorHole),
    Leads hole.depth n 10 (.bracket head path hole) (ws ++ [⟨.rightBracket, p⟩])
      (.filtered f head path hole)

end MapExpr
