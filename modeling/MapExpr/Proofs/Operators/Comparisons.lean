import MapExpr.Proofs.Grammar.Complete
import MapExpr.Proofs.Operators.Grouping

/-!
# Second comparisons

Comparisons do not chain: in a row of operands, a comparison may follow another one only after `or`
or `and`. A reader takes the operators of a row up to the first that does otherwise.

* `Operator.IsSecondComparison`: where that operator is, and `Operator.exists_isSecondComparison`:
  that there is one if a run of operators has two comparisons;
* `Chain.exists_push`: what an operator does to the comparison before it;
* `Row.exists_leads`: a row without a second comparison is read;
* `Row.run_second`: a second comparison is refused.
-/

namespace MapExpr

open Grammar (Derives Level)
open Parse
open Word (symbol)

namespace Parse.Operator

variable {ops : List Operator} {op : Operator}

/-- The operators since the last `or` or `and`. -/
def lastRun (ops : List Operator) : List Operator :=
  (runs ops).getLastD []

/-- No run has two comparisons. -/
def ComparesOnce (ops : List Operator) : Prop :=
  ∀ run ∈ runs ops, run.countP isRelational ≤ 1

instance (ops : List Operator) : Decidable (ComparesOnce ops) :=
  inferInstanceAs (Decidable (∀ run ∈ runs ops, run.countP isRelational ≤ 1))

/-- After the operators `front`, the operator is the second comparison of a run, and no run before
has two. -/
structure IsSecondComparison (front : List Operator) (op : Operator) : Prop where
  compares : op.isRelational = true
  last : (lastRun front).countP Operator.isRelational = 1
  earlier : ComparesOnce front

theorem isRelational_eq_false (h : op.isLogical = true) : op.isRelational = false := by
  cases op <;> first | rfl | cases h

theorem comparesOnce_nil : ComparesOnce [] := by
  intro run hrun
  obtain rfl := List.mem_singleton.1 hrun
  exact Nat.zero_le 1

theorem runs_concat_of_isLogical (ops : List Operator) (h : op.isLogical = true) :
    runs (ops ++ [op]) = runs ops ++ [[]] := by
  rw [runs, List.splitOnP_append_cons ops [] h]
  rfl

theorem lastRun_concat (ops : List Operator) (op : Operator) :
    lastRun (ops ++ [op]) = if op.isLogical then [] else lastRun ops ++ [op] := by
  cases hop : op.isLogical with
  | true => simp [lastRun, runs_concat_of_isLogical ops hop]
  | false =>
    obtain ⟨before, last, hops, hconcat⟩ := exists_splitOnP_concat hop ops
    simp [lastRun, runs, hops, hconcat]

theorem comparesOnce_concat (ops : List Operator) (op : Operator) : ComparesOnce (ops ++ [op]) ↔
    ComparesOnce ops ∧ (op.isRelational = true → (lastRun ops).countP isRelational = 0) := by
  cases hop : op.isLogical with
  | true =>
    simp [ComparesOnce, runs_concat_of_isLogical ops hop, isRelational_eq_false hop, or_imp,
      forall_and]
  | false =>
    obtain ⟨before, last, hops, hconcat⟩ := exists_splitOnP_concat hop ops
    simp only [ComparesOnce, lastRun, runs, hops, hconcat, List.forall_mem_append,
      List.forall_mem_singleton, List.getLastD_concat, List.countP_append, List.countP_singleton]
    rw [and_assoc]
    refine and_congr_right fun _ => ?_
    split
    · rename_i hrelational
      simp only [hrelational, forall_const]
      omega
    · rename_i hrelational
      simp [hrelational]

theorem ComparesOnce.lastRun_le (h : ComparesOnce ops) :
    (lastRun ops).countP isRelational ≤ 1 := by
  refine h _ ?_
  rw [lastRun, List.getLastD_eq_getLast?, List.getLast?_eq_some_getLast]
  · exact List.getLast_mem _
  · exact List.splitOnP_ne_nil _ _

/-- Where a run has two comparisons, there is a first run that does. -/
theorem exists_isSecondComparison (h : ¬ ComparesOnce ops) :
    ∃ front op back, ops = front ++ op :: back ∧ IsSecondComparison front op := by
  induction ops using List.reverseRecOn with
  | nil => exact absurd comparesOnce_nil h
  | append_singleton ops op ih =>
    by_cases honce : ComparesOnce ops
    · have hle := honce.lastRun_le
      have hlast : op.isRelational = true ∧ (lastRun ops).countP isRelational ≠ 0 := by
        by_contra hnot
        exact h ((comparesOnce_concat ops op).2 ⟨honce, fun hop => by simp_all⟩)
      exact ⟨ops, op, [], rfl, hlast.1, by omega, honce⟩
    · obtain ⟨front, op', back, rfl, hsecond⟩ := ih honce
      exact ⟨front, op', back ++ [op], by simp, hsecond⟩

end Parse.Operator

/-! ## What an operator does to a chain -/

@[simp] theorem Parse.Operator.ofKind?_kind (op : Operator) :
    Operator.ofKind? op.kind = some op := by
  cases op <;> simp only [Operator.kind, ofKind?_relational, ofKind?_additive,
    ofKind?_multiplicative] <;> rfl

theorem Parse.Operator.joins_kind_lt (op : Operator) : op.kind.joins < 6 := by
  rw [joins_of_ofKind? op.ofKind?_kind]
  exact Nat.lt_succ_of_le op.strength_le

/-- A comparison is remembered until the next `or` or `and`. -/
theorem Parse.Chain.exists_push {c : Chain} (e : Expr) {op : Operator}
    (h : op.isRelational = true → c.compared = none) :
    ∃ d, (c.push e op).value = some d ∧
      d.compared.isSome = (op.isRelational || (c.compared.isSome && !op.isLogical)) := by
  cases op with
  | relational op =>
    simp only [push, h rfl, Traced.value_bind, Traced.value_pure]
    exact ⟨_, rfl, rfl⟩
  | _ => exact ⟨_, rfl, by simp [Operator.isRelational, Operator.isLogical, Operator.relational?,
      Operator.or?, Operator.and?, Chain.empty]⟩

/-- A comparison is refused where one is remembered. -/
theorem Parse.Chain.push_eq_none {c : Chain} (e : Expr) {op : Operator}
    (hop : op.isRelational = true) (hc : c.compared.isSome = true) :
    (c.push e op).value = none := by
  obtain ⟨x, hx⟩ := Option.isSome_iff_exists.1 hc
  cases op with
  | relational op => simp only [push, hx, Traced.value_bind, Traced.value_pure]
  | _ => cases hop

/-! ## Reading a row -/

namespace Row

variable {α : Type} {d : Nat} {leaf : α → Expr} {wordsOf : α → List Word} {r : Row Operator α}

/-- A row without a second comparison is read, and a comparison in its last run is remembered. -/
theorem exists_leads (hleaf : ∀ x, Fits d (.phrase .primary) (wordsOf x) (leaf x))
    (hr : Operator.ComparesOnce r.operators) (hole : ExprHole) :
    ∃ (c : Chain) (e : Expr) (n : Nat), n < d ∧
      Leads hole.depth n 6 (.operandDue .empty hole) (r.words Operator.kind wordsOf)
        (.operandDone e c hole) ∧
      (Operator.lastRun r.operators).countP Operator.isRelational = c.compared.isSome.toNat := by
  obtain ⟨x, rest⟩ := r
  induction rest using List.reverseRecOn with
  | nil =>
    obtain ⟨n, hx, hn⟩ := hleaf x
    refine ⟨.empty, leaf x, n, hn, ?_, rfl⟩
    simpa [words, flat] using hx.reads .empty hole (Chain.clear_empty .primary)
  | append_singleton rest y ih =>
    obtain ⟨op, y⟩ := y
    simp only [operators, List.map_append, List.map_cons, List.map_nil] at ih hr ⊢
    obtain ⟨hrest, hop⟩ := (Operator.comparesOnce_concat _ op).1 hr
    obtain ⟨c, e, m, hm, hleads, hlast⟩ := ih hrest
    obtain ⟨n, hy, hn⟩ := hleaf y
    -- a comparison finds none before it in its run
    obtain ⟨c', hpush, hcompared⟩ := c.exists_push e fun hrelational => by
      have hnone := hlast.symm.trans (hop hrelational)
      simpa using hnone
    refine ⟨c', leaf y, max m n, Nat.max_lt.2 ⟨hm, hn⟩, ?_, ?_⟩
    · have htakes : Takes (.operandDone e c hole) (symbol op.kind) (.operandDue c' hole) :=
        takes_operator op.ofKind?_kind hpush
      have hjoin := hleads.join htakes (hy.reads c' hole (Chain.clear_primary c'))
        op.joins_kind_lt (Nat.le_refl 6)
      simpa [words, flat] using hjoin
    · rw [Operator.lastRun_concat, hcompared]
      cases hlogical : op.isLogical with
      | true => simp [Operator.isRelational_eq_false hlogical]
      | false =>
        cases hrelational : op.isRelational with
        | true => simp [hrelational, hop hrelational]
        | false => simp [hrelational, hlast]

/-- After a row without a second comparison, a token that is one is refused. -/
theorem run_second (hleaf : ∀ x, Fits d (.phrase .primary) (wordsOf x) (leaf x)) {op : Operator}
    (hsecond : op.IsSecondComparison r.operators) {ts us : List Token} {t : Token}
    (hts : ts.map Token.word = r.words Operator.kind wordsOf) (ht : t.kind = op.kind) :
    start.run d (ts ++ t :: us) = .error (Expectation.oneComparison.butFound t) := by
  obtain ⟨c, e, n, hn, hleads, hlast⟩ := exists_leads hleaf hsecond.earlier .root
  have hne : r.words Operator.kind wordsOf ≠ [] := by
    obtain ⟨m, hfirst, -⟩ := hleaf r.first
    exact List.append_ne_nil_of_left_ne_nil
      (Grammar.Category.ne_nil_of_reads (Derives.of_primary hfirst).reads) _
  have hdue : Leads 0 (n + 1) 6 start (r.words Operator.kind wordsOf) (.operandDone e c .root) :=
    Leads.enter hleads hne fun _ _ => rfl
  obtain ⟨s, hrun, hagree⟩ := hdue.reads (show 0 + (n + 1) ≤ d by omega) hts
  have hstep : (s.step d t).value = .error (Expectation.oneComparison.butFound t) := by
    have hjoins : t.kind.joins < 6 := ht ▸ op.joins_kind_lt
    have hcompared : c.compared.isSome = true := by
      simpa using hlast.symm.trans hsecond.last
    rw [hagree t hjoins]
    simp only [State.step, afterOperand, ht, Operator.ofKind?_kind, Traced.value_bind,
      Chain.push_eq_none e hsecond.compares hcompared]
    rfl
  rw [State.run_append, hrun]
  show s.run d (t :: us) = _
  rw [State.run_cons, hstep]
  rfl

end Row

end MapExpr
