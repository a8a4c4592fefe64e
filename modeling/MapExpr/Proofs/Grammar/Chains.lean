import MapExpr.Proofs.Grammar.Runs

/-!
# Chains of operands

What an operator does to the operands before it. A level is closed by every token that joins less
tightly, and such tokens cannot tell the operands of a closed level from the node that they form.

* `Chain.Clear`: no operand stands before the present one on a level or on a tighter one;
* `Chain.unroll_append`: a further operand comes last;
* `takes_operator`: what an operator does;
* `Chain.Alike`, `Clear.alike_or` to `Clear.alike_multiplicative`: a closed level is its node;
* `Clear.push_or` to `Clear.push_additive`: an operator after a level that was clear.
-/

namespace MapExpr

/-! ## The operators and their levels -/

@[simp] theorem RelationalOp.joins_kind (op : RelationalOp) : op.kind.joins = 3 := by
  cases op <;> rfl

@[simp] theorem AdditiveOp.joins_kind (op : AdditiveOp) : op.kind.joins = 4 := by
  cases op <;> rfl

@[simp] theorem MultiplicativeOp.joins_kind (op : MultiplicativeOp) : op.kind.joins = 5 := by
  cases op <;> rfl

namespace Parse

@[simp] theorem Operator.ofKind?_relational (op : RelationalOp) :
    ofKind? op.kind = some (.relational op) := by
  cases op <;> rfl

@[simp] theorem Operator.ofKind?_additive (op : AdditiveOp) :
    ofKind? op.kind = some (.additive op) := by
  cases op <;> rfl

@[simp] theorem Operator.ofKind?_multiplicative (op : MultiplicativeOp) :
    ofKind? op.kind = some (.multiplicative op) := by
  cases op <;> rfl

/-- How tightly an operator binds. -/
def Operator.strength : Operator → Nat
  | or => 1
  | and => 2
  | relational _ => 3
  | additive _ => 4
  | multiplicative _ => 5

theorem Operator.joins_of_ofKind? {k : Kind} {op : Operator} (h : ofKind? k = some op) :
    k.joins = op.strength := by
  cases k <;> simp only [ofKind?, Option.some.injEq, reduceCtorEq] at h <;> subst h <;> rfl

/-- The kind of the token that is an operator. -/
def Operator.kind : Operator → Kind
  | or => .orWord
  | and => .andWord
  | relational op => op.kind
  | additive op => op.kind
  | multiplicative op => op.kind

theorem Operator.kind_of_ofKind? {k : Kind} {op : Operator} (h : ofKind? k = some op) :
    k = op.kind := by
  cases k <;> simp only [ofKind?, Option.some.injEq, reduceCtorEq] at h <;> subst h <;> rfl

/-- A token that joins nothing is no operator. -/
theorem Operator.ofKind?_eq_none {k : Kind} (h : k.joins < 1) : ofKind? k = none := by
  cases hop : ofKind? k with
  | none => rfl
  | some op =>
    rw [joins_of_ofKind? hop] at h
    cases op <;> simp [strength] at h

variable {limit : Nat} {c d : Chain} {e f : Expr} {hole : ExprHole} {op : Operator} {w : Word}

theorem takes_operator (hw : Operator.ofKind? w.kind = some op)
    (hc : (c.push e op).value = some d) :
    Takes (.operandDone e c hole) w (.operandDue d hole) := by
  intro limit start
  simp only [State.step, afterOperand, hw, Traced.value_bind, hc]
  rfl

namespace Chain

open Grammar (Level)

/-- No operand stands before the present one on the level `ℓ` or on a tighter one. -/
structure Clear (ℓ : Level) (c : Chain) : Prop where
  disjuncts : ℓ.strength ≤ 1 → c.disjuncts = []
  conjuncts : ℓ.strength ≤ 2 → c.conjuncts = []
  compared : ℓ.strength ≤ 3 → c.compared = none
  terms : ℓ.strength ≤ 4 → c.terms = []
  factors : ℓ.strength ≤ 5 → c.factors = []

theorem Clear.mono {ℓ k : Level} (h : c.Clear ℓ) (hk : ℓ.strength ≤ k.strength) : c.Clear k :=
  ⟨fun hk' => h.disjuncts (by omega), fun hk' => h.conjuncts (by omega),
    fun hk' => h.compared (by omega), fun hk' => h.terms (by omega),
    fun hk' => h.factors (by omega)⟩

theorem clear_empty (ℓ : Level) : empty.Clear ℓ :=
  ⟨fun _ => rfl, fun _ => rfl, fun _ => rfl, fun _ => rfl, fun _ => rfl⟩

/-! An operand on a level leaves the tighter levels clear. -/

theorem Clear.disjuncts_and (h : c.Clear .or) (es : List Expr) :
    Clear .and { c with disjuncts := es } :=
  ⟨fun hk => absurd hk (by decide), fun _ => h.conjuncts (by decide),
    fun _ => h.compared (by decide), fun _ => h.terms (by decide), fun _ => h.factors (by decide)⟩

theorem Clear.conjuncts_comparison (h : c.Clear .and) (es : List Expr) :
    Clear .comparison { c with conjuncts := es } :=
  ⟨fun hk => absurd hk (by decide), fun hk => absurd hk (by decide),
    fun _ => h.compared (by decide), fun _ => h.terms (by decide), fun _ => h.factors (by decide)⟩

theorem Clear.compared_additive (h : c.Clear .comparison) (x : Option (Expr × RelationalOp)) :
    Clear .additive { c with compared := x } :=
  ⟨fun hk => absurd hk (by decide), fun hk => absurd hk (by decide),
    fun hk => absurd hk (by decide), fun _ => h.terms (by decide), fun _ => h.factors (by decide)⟩

theorem Clear.terms_multiplicative (h : c.Clear .additive) (es : List (Expr × AdditiveOp)) :
    Clear .multiplicative { c with terms := es } :=
  ⟨fun hk => absurd hk (by decide), fun hk => absurd hk (by decide),
    fun hk => absurd hk (by decide), fun hk => absurd hk (by decide),
    fun _ => h.factors (by decide)⟩

theorem clear_primary (c : Chain) : c.Clear .primary :=
  ⟨fun hk => absurd hk (by decide), fun hk => absurd hk (by decide),
    fun hk => absurd hk (by decide), fun hk => absurd hk (by decide),
    fun hk => absurd hk (by decide)⟩

/-! A clear level has no operator, so an operand that ends it is its node. -/

theorem Clear.product_eq (h : c.Clear .multiplicative) (e : Expr) : c.product e = pure e := by
  simp only [product, h.factors (by decide)]

theorem Clear.sum_eq (h : c.Clear .additive) (e : Expr) : c.sum e = pure e := by
  simp only [sum, (h.mono (k := .multiplicative) (by decide)).product_eq, h.terms (by decide)]
  rfl

theorem Clear.comparison_eq (h : c.Clear .comparison) (e : Expr) : c.comparison e = pure e := by
  simp only [comparison, (h.mono (k := .additive) (by decide)).sum_eq, h.compared (by decide)]
  rfl

theorem Clear.conjunction_eq (h : c.Clear .and) (e : Expr) : c.conjunction e = pure e := by
  simp only [conjunction, (h.mono (k := .comparison) (by decide)).comparison_eq,
    h.conjuncts (by decide)]
  rfl

theorem Clear.disjunction_eq (h : c.Clear .or) (e : Expr) : c.disjunction e = pure e := by
  simp only [disjunction, (h.mono (k := .and) (by decide)).conjunction_eq, h.disjuncts (by decide)]
  rfl

/-! A clear level is as it is without operands. -/

theorem Clear.disjuncts_nil (h : c.Clear .or) : { c with disjuncts := [] } = c := by
  rw [← h.disjuncts (by decide)]

theorem Clear.conjuncts_nil (h : c.Clear .and) : { c with conjuncts := [] } = c := by
  rw [← h.conjuncts (by decide)]

theorem Clear.terms_nil (h : c.Clear .additive) : { c with terms := [] } = c := by
  rw [← h.terms (by decide)]

theorem Clear.factors_nil (h : c.Clear .multiplicative) : { c with factors := [] } = c := by
  rw [← h.factors (by decide)]

/-- A further operand comes last. -/
theorem unroll_append {Op : Type} (before : List (Expr × Op)) (last : Expr)
    (es fs : List (Op × Expr)) :
    unroll before last (es ++ fs) =
      ((unroll before last es).1, (unroll before last es).2 ++ fs) := by
  induction before generalizing last es with
  | nil => rfl
  | cons x before ih => exact ih x.1 ((x.2, last) :: es)

theorem unroll_cons {Op : Type} (x : Expr × Op) (before : List (Expr × Op)) (last : Expr) :
    unroll (x :: before) last [] =
      ((unroll before x.1 []).1, (unroll before x.1 []).2 ++ [(x.2, last)]) :=
  unroll_append before x.1 [] [(x.2, last)]

/-- Nothing comes after the first operand only if nothing comes before the last one. -/
theorem eq_of_unroll_nil {Op : Type} {before : List (Expr × Op)} {last first : Expr}
    (h : unroll before last [] = (first, [])) : before = [] ∧ last = first := by
  cases before with
  | nil => exact ⟨rfl, congrArg Prod.fst h⟩
  | cons x before =>
    rw [unroll_cons] at h
    simpa using congrArg Prod.snd h

/-! ## Closed levels -/

theorem sum_congr (h : (c.product e).value = (d.product f).value) (ht : c.terms = d.terms) :
    (c.sum e).value = (d.sum f).value := by
  simp only [sum, Traced.value_bind, h, ht]

theorem comparison_congr (h : (c.sum e).value = (d.sum f).value) (hr : c.compared = d.compared) :
    (c.comparison e).value = (d.comparison f).value := by
  simp only [comparison, Traced.value_bind, h, hr]

theorem conjunction_congr (h : (c.comparison e).value = (d.comparison f).value)
    (hc : c.conjuncts = d.conjuncts) : (c.conjunction e).value = (d.conjunction f).value := by
  simp only [conjunction, Traced.value_bind, h, hc]

theorem disjunction_congr (h : (c.conjunction e).value = (d.conjunction f).value)
    (hd : c.disjuncts = d.disjuncts) : (c.disjunction e).value = (d.disjunction f).value := by
  simp only [disjunction, Traced.value_bind, h, hd]

/-- The operators that bind less tightly than `k`, and the end of the expression, do the same to the
operand `e` after `c` as to the operand `f` after `d`. -/
structure Alike (k : Nat) (c : Chain) (e : Expr) (d : Chain) (f : Expr) : Prop where
  push_eq : ∀ op : Operator, op.strength < k → (c.push e op).value = (d.push f op).value
  disjunction_eq : (c.disjunction e).value = (d.disjunction f).value

namespace Alike

variable {k : Nat}

theorem refl (k : Nat) (c : Chain) (e : Expr) : Alike k c e c e :=
  ⟨fun _ _ => rfl, rfl⟩

theorem afterOperand_eq (h : Alike k c e d f) {t : Token}
    (ht : ∀ op, Operator.ofKind? t.kind = some op → op.strength < k) :
    (afterOperand e c hole t).value = (afterOperand f d hole t).value := by
  simp only [afterOperand]
  split
  · rename_i op hop
    simp only [Traced.value_bind, h.push_eq op (ht op hop)]
  · simp only [Traced.value_bind, h.disjunction_eq]

theorem agree (h : Alike k c e d f) :
    Agree limit k (.operandDone e c hole) (.operandDone f d hole) :=
  fun _ ht => h.afterOperand_eq fun _ hop => Operator.joins_of_ofKind? hop ▸ ht

theorem of_disjunction (h : (c.disjunction e).value = (d.disjunction f).value) :
    Alike 1 c e d f := by
  refine ⟨fun op hop => ?_, h⟩
  cases op <;> simp [Operator.strength] at hop

theorem of_conjunction (h : (c.conjunction e).value = (d.conjunction f).value)
    (hd : c.disjuncts = d.disjuncts) : Alike 2 c e d f := by
  refine ⟨fun op hop => ?_, disjunction_congr h hd⟩
  cases op with
  | or => simp only [push, Traced.value_bind, h, hd]
  | _ => simp [Operator.strength] at hop

theorem of_comparison (h : (c.comparison e).value = (d.comparison f).value)
    (hc : c.conjuncts = d.conjuncts) (hd : c.disjuncts = d.disjuncts) : Alike 3 c e d f := by
  have hless := of_conjunction (conjunction_congr h hc) hd
  refine ⟨fun op hop => ?_, hless.disjunction_eq⟩
  cases op with
  | and => simp only [push, Traced.value_bind, h, hc, hd]
  | or => exact hless.push_eq _ (by decide)
  | _ => simp [Operator.strength] at hop

theorem of_sum {es : List (Expr × AdditiveOp)}
    (h : (Chain.sum { c with terms := es } e).value = (c.sum f).value) :
    Alike 4 { c with terms := es } e c f := by
  have hless := of_comparison (comparison_congr h rfl) rfl rfl
  refine ⟨fun op hop => ?_, hless.disjunction_eq⟩
  cases op with
  | relational op => simp only [push, Traced.value_bind, h]
  | and | or => exact hless.push_eq _ (by decide)
  | _ => simp [Operator.strength] at hop

theorem of_product {es : List (Expr × MultiplicativeOp)}
    (h : (Chain.product { c with factors := es } e).value = (c.product f).value) :
    Alike 5 { c with factors := es } e c f := by
  have hsum := sum_congr h rfl
  have hless := of_comparison (comparison_congr hsum rfl) rfl rfl
  refine ⟨fun op hop => ?_, hless.disjunction_eq⟩
  cases op with
  | additive op => simp only [push, Traced.value_bind, h]
  | relational op => simp only [push, Traced.value_bind, hsum]
  | and | or => exact hless.push_eq _ (by decide)
  | multiplicative op => simp [Operator.strength] at hop

end Alike

/-! A chain of two or more operands on a level is the node that they form there. -/

theorem Clear.alike_or (h : c.Clear .or) (before : List Expr) :
    Alike 1 { c with disjuncts := f :: before } e c (.or (e :: f :: before).reverse) := by
  refine .of_disjunction ?_
  rw [h.disjunction_eq]
  simp only [disjunction, (h.disjuncts_and _).conjunction_eq]
  rfl

theorem Clear.alike_and (h : c.Clear .and) (before : List Expr) :
    Alike 2 { c with conjuncts := f :: before } e c (.and (e :: f :: before).reverse) := by
  refine .of_conjunction ?_ rfl
  rw [h.conjunction_eq]
  simp only [conjunction, (h.conjuncts_comparison _).comparison_eq]
  rfl

theorem Clear.alike_comparison (h : c.Clear .comparison) (op : RelationalOp) :
    Alike 3 { c with compared := some (e, op) } f c (.comparison op e f) := by
  refine .of_comparison ?_ rfl rfl
  rw [h.comparison_eq]
  simp only [comparison, (h.compared_additive _).sum_eq]
  rfl

theorem Clear.alike_additive (h : c.Clear .additive) {before : List (Expr × AdditiveOp)}
    {rest : List (AdditiveOp × Expr)} (hunroll : unroll before e [] = (f, rest))
    (hrest : rest ≠ []) : Alike 4 { c with terms := before } e c (.additive f rest) := by
  refine .of_sum ?_
  obtain ⟨x, before, rfl⟩ : ∃ x es, before = x :: es :=
    List.exists_cons_of_ne_nil fun hnil => hrest (by rw [hnil] at hunroll; cases hunroll; rfl)
  rw [h.sum_eq]
  simp only [sum, (h.terms_multiplicative _).product_eq, Traced.value_bind, Traced.value_pure,
    hunroll, Traced.value_note]

theorem Clear.alike_multiplicative (h : c.Clear .multiplicative)
    {before : List (Expr × MultiplicativeOp)} {rest : List (MultiplicativeOp × Expr)}
    (hunroll : unroll before e [] = (f, rest)) (hrest : rest ≠ []) :
    Alike 5 { c with factors := before } e c (.multiplicative f rest) := by
  refine .of_product ?_
  obtain ⟨x, before, rfl⟩ : ∃ x es, before = x :: es :=
    List.exists_cons_of_ne_nil fun hnil => hrest (by rw [hnil] at hunroll; cases hunroll; rfl)
  rw [h.product_eq]
  simp only [product, hunroll, Traced.value_note, Traced.value_pure]

/-! ## Operators after a clear level -/

theorem Clear.push_or (h : c.Clear .or) (before : List Expr) :
    (push { c with disjuncts := before } e .or).value =
      some { c with disjuncts := e :: before } := by
  simp only [push, (h.disjuncts_and before).conjunction_eq, Traced.value_bind, Traced.value_pure,
    empty, ← h.conjuncts (by decide), ← h.compared (by decide), ← h.terms (by decide),
    ← h.factors (by decide)]

theorem Clear.push_and (h : c.Clear .and) (before : List Expr) :
    (push { c with conjuncts := before } e .and).value =
      some { c with conjuncts := e :: before } := by
  simp only [push, (h.conjuncts_comparison before).comparison_eq, Traced.value_bind,
    Traced.value_pure, empty, ← h.compared (by decide), ← h.terms (by decide),
    ← h.factors (by decide)]

theorem Clear.push_relational (h : c.Clear .comparison) (op : RelationalOp) :
    (c.push e (.relational op)).value = some { c with compared := some (e, op) } := by
  simp only [push, (h.mono (k := .additive) (by decide)).sum_eq, Traced.value_bind,
    Traced.value_pure, h.compared (by decide), ← h.terms (by decide), ← h.factors (by decide)]

theorem Clear.push_additive (h : c.Clear .additive) (before : List (Expr × AdditiveOp))
    (op : AdditiveOp) : (push { c with terms := before } e (.additive op)).value =
      some { c with terms := (e, op) :: before } := by
  simp only [push, (h.terms_multiplicative before).product_eq, Traced.value_bind,
    Traced.value_pure, ← h.factors (by decide)]

end Chain

end Parse

end MapExpr
