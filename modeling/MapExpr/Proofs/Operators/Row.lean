/-!
# Rows of operands

Operands with an operator between each two of them. A row is split at some of its operators into
the parts between them, which are rows themselves.

* `Row.split`: the parts of a row, as a row;
* `Row.operators_split`, `Row.map_operators_split`, `Row.mem_of_mem_split`: where the operators
  of a row are after splitting;
* `Row.flat`, `Row.flat_split`: a row written out is its parts written out.
-/

namespace MapExpr

/-- Splitting at elements of two sorts is splitting at the first sort and then at the second. -/
theorem splitOnP_or {α : Type} (p q : α → Bool) (xs : List α) :
    xs.splitOnP (fun x => p x || q x) = (xs.splitOnP p).flatMap (List.splitOnP q) := by
  induction xs with
  | nil => rfl
  | cons x xs ih =>
    obtain ⟨run, runs, hruns⟩ := List.exists_cons_of_ne_nil (List.splitOnP_ne_nil p xs)
    obtain ⟨run', runs', hruns'⟩ := List.exists_cons_of_ne_nil (List.splitOnP_ne_nil q run)
    have hcons := List.splitOnP_cons_eq_if_modifyHead (p := q) x run
    rw [hruns] at ih
    rw [List.splitOnP_cons_eq_if_modifyHead, List.splitOnP_cons_eq_if_modifyHead, ih, hruns]
    cases p x <;> cases hq : q x <;> simp [hcons, hq, hruns']

/-- An element that separates nothing belongs to the last stretch. -/
theorem exists_splitOnP_concat {α : Type} {p : α → Bool} {x : α} (hx : p x = false) (xs : List α) :
    ∃ before last, xs.splitOnP p = before ++ [last] ∧
      (xs ++ [x]).splitOnP p = before ++ [last ++ [x]] := by
  induction xs with
  | nil => exact ⟨[], [], rfl, by simp [List.splitOnP_cons_eq_if_modifyHead, hx]⟩
  | cons y xs ih =>
    obtain ⟨before, last, hxs, hconcat⟩ := ih
    rw [List.cons_append, List.splitOnP_cons_eq_if_modifyHead, List.splitOnP_cons_eq_if_modifyHead,
      hxs, hconcat]
    cases p y with
    | true => exact ⟨[] :: before, last, rfl, rfl⟩
    | false =>
      cases before with
      | nil => exact ⟨[], y :: last, rfl, rfl⟩
      | cons run before => exact ⟨(y :: run) :: before, last, rfl, rfl⟩

/-- Operands with an operator between each two of them. -/
structure Row (Op α : Type) where
  first : α
  /-- Every further operand, with the operator before it. -/
  rest : List (Op × α)

namespace Row

variable {Op Sep α β γ : Type}

def operators (r : Row Op α) : List Op :=
  r.rest.map Prod.fst

def operands (r : Row Op α) : List α :=
  r.first :: r.rest.map Prod.snd

/-- The row with an operand and an operator in front. -/
def cons (x : α) (op : Op) (r : Row Op α) : Row Op α :=
  ⟨x, (op, r.first) :: r.rest⟩

/-- The row with a function applied to every operand. -/
def map (f : α → β) (r : Row Op α) : Row Op β :=
  ⟨f r.first, r.rest.map fun x => (x.1, f x.2)⟩

/-- The parts of the row that begins with `x` and goes on with `rest`. -/
def splitFrom (sep : Op → Option Sep) (x : α) : List (Op × α) → Row Sep (Row Op α)
  | [] => ⟨⟨x, []⟩, []⟩
  | (op, y) :: rest =>
    let parts := splitFrom sep y rest
    match sep op with
    | some s => parts.cons ⟨x, []⟩ s
    | none => ⟨parts.first.cons x op, parts.rest⟩

/-- The parts of a row between the operators that separate them. -/
def split (sep : Op → Option Sep) (r : Row Op α) : Row Sep (Row Op α) :=
  splitFrom sep r.first r.rest

theorem operators_splitFrom (sep : Op → Option Sep) (x : α) (rest : List (Op × α)) :
    (splitFrom sep x rest).operators = (rest.map Prod.fst).filterMap sep := by
  induction rest generalizing x with
  | nil => rfl
  | cons y rest ih =>
    obtain ⟨op, y⟩ := y
    have hy := ih y
    simp only [operators] at hy
    cases hsep : sep op <;> simp [splitFrom, operators, cons, hsep, hy]

/-- The separators are the operators that a row is split at. -/
theorem operators_split (sep : Op → Option Sep) (r : Row Op α) :
    (r.split sep).operators = r.operators.filterMap sep :=
  operators_splitFrom sep r.first r.rest

/-- The operators of the parts are the stretches between the separators. -/
theorem map_operators_split (sep : Op → Option Sep) (r : Row Op α) :
    (r.split sep).operands.map operators = r.operators.splitOnP fun op => (sep op).isSome := by
  obtain ⟨x, rest⟩ := r
  simp only [split, operators]
  induction rest generalizing x with
  | nil => rfl
  | cons y rest ih =>
    obtain ⟨op, y⟩ := y
    have hy := ih y
    rw [List.map_cons, List.splitOnP_cons_eq_if_modifyHead, ← hy]
    cases hsep : sep op <;> simp [splitFrom, operands, operators, cons, hsep]

theorem mem_of_mem_splitFrom {sep : Op → Option Sep} {x : α} {rest : List (Op × α)}
    {p : Row Op α} (hp : p ∈ (splitFrom sep x rest).operands) {op : Op}
    (hop : op ∈ p.operators) : op ∈ rest.map Prod.fst ∧ sep op = none := by
  induction rest generalizing x p with
  | nil =>
    obtain rfl := List.mem_singleton.1 hp
    cases hop
  | cons y rest ih =>
    obtain ⟨op', y⟩ := y
    cases hsep : sep op' with
    | some s =>
      simp only [splitFrom, hsep] at hp
      rcases List.mem_cons.1 hp with rfl | hp
      · cases hop
      · exact (ih hp hop).imp_left (List.mem_cons_of_mem _)
    | none =>
      simp only [splitFrom, hsep] at hp
      rcases List.mem_cons.1 hp with rfl | hp
      · -- the operator in front, or one of the first part of the rest
        rcases List.mem_cons.1 hop with rfl | hop
        · exact ⟨List.mem_cons_self, hsep⟩
        · exact (ih List.mem_cons_self hop).imp_left (List.mem_cons_of_mem _)
      · exact (ih (List.mem_cons_of_mem _ hp) hop).imp_left (List.mem_cons_of_mem _)

/-- The operators of a part are operators of the row, and no separators. -/
theorem mem_of_mem_split {sep : Op → Option Sep} {r p : Row Op α}
    (hp : p ∈ (r.split sep).operands) {op : Op} (hop : op ∈ p.operators) :
    op ∈ r.operators ∧ sep op = none :=
  mem_of_mem_splitFrom hp hop

/-- A row written out, with what stands for its operators between what stands for its operands. -/
def flat (between : Op → List γ) (f : α → List γ) (r : Row Op α) : List γ :=
  f r.first ++ r.rest.flatMap fun x => between x.1 ++ f x.2

/-- The parts written out between their separators are the row written out. -/
theorem flat_split {sep : Op → Option Sep} {between : Op → List γ} {between' : Sep → List γ}
    (h : ∀ op s, sep op = some s → between' s = between op) (f : α → List γ) (r : Row Op α) :
    (r.split sep).flat between' (flat between f) = r.flat between f := by
  obtain ⟨x, rest⟩ := r
  simp only [split, flat]
  induction rest generalizing x with
  | nil => simp [splitFrom]
  | cons y rest ih =>
    obtain ⟨op, y⟩ := y
    have hy := ih y
    cases hsep : sep op with
    | some s =>
      simp only [splitFrom, hsep, cons, List.flatMap_cons, List.flatMap_nil, List.append_nil,
        List.append_assoc, ← hy, h op s hsep]
    | none =>
      simp only [splitFrom, hsep, cons, List.flatMap_cons, List.append_assoc, ← hy]

end Row

end MapExpr
