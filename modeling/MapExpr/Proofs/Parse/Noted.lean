import MapExpr.Parse.Basic
import MapExpr.Proofs.Expr.Postorder

/-!
# What has been noted

A reader notes an operator node when it is complete. The subtrees that are complete stand in its
state in the order of the text, so at every token the events that it has noted are those of the
subtrees in its state.

* `State.noted`: the events of the subtrees in a state;
* `Traced.Builds`, `Chain.builds_disjunction`, `Chain.noted_push`: the operators that a token
  closes;
* `Outcome.Notes`: a token that is taken notes what the state after it has more than the one before;
* `State.step_notes`, `read_notes`: every token does so, and every list of tokens.
-/

namespace MapExpr.Parse

open Outcome

/-! ## The subtrees in a state -/

/-- The events of nodes of which the newest comes first. -/
def backlog (xs : List Node) : List Event :=
  xs.reverse.flatMap Node.events

@[simp] theorem backlog_nil : backlog [] = [] := rfl

@[simp] theorem backlog_cons (x : Node) (xs : List Node) :
    backlog (x :: xs) = backlog xs ++ x.events := by
  simp [backlog]

def Path.noted (p : Path) : List Event :=
  backlog (p.before.map .step)

/-- The loosest operators have the first operands. -/
def Chain.noted (c : Chain) : List Event :=
  backlog (c.disjuncts.map .expr) ++ (backlog (c.conjuncts.map .expr) ++
    (backlog (c.compared.toList.map fun x => .expr x.1) ++
      (backlog (c.terms.map fun x => .expr x.1) ++ backlog (c.factors.map fun x => .expr x.1))))

mutual

def ExprHole.noted : ExprHole → List Event
  | .root => []
  | .group chain outer => outer.noted ++ chain.noted
  | .argument _ _ before chain outer => outer.noted ++ (chain.noted ++ backlog (before.map .expr))
  | .filter _ path outer => outer.noted ++ path.noted

def SelectorHole.noted : SelectorHole → List Event
  | .operand chain outer => outer.noted ++ chain.noted
  | .member before outer => outer.noted ++ backlog (before.map .selector)
  | .scoped outer => outer.noted

end

/-- The events of the subtrees that are complete, in the order of the text. -/
def State.noted : State → List Event
  | .expressionDue hole => hole.noted
  | .operandDue chain hole | .dollar chain hole | .dollarName _ chain hole
  | .leadingName _ chain hole | .callOpened _ _ chain hole => hole.noted ++ chain.noted
  | .operandDone e chain hole => hole.noted ++ (chain.noted ++ (Node.expr e).events)
  | .scopedDue hole | .selectorDue hole | .selectorDollar hole => hole.noted
  | .selectorDone s hole => hole.noted ++ (Node.selector s).events
  | .stepDue path hole | .nodeNameDue path hole | .firstName _ _ path hole
  | .localNameDue _ _ path hole | .stepName _ path hole | .bracket _ path hole
  | .bracketNumber _ _ path hole | .indexed _ _ path hole | .stepDone path hole =>
    hole.noted ++ path.noted
  | .filtered f _ path hole | .secondBracket f _ path hole | .secondIndex f _ _ path hole =>
    hole.noted ++ (path.noted ++ (Node.filter f).events)
  | .accepted parsed => (Node.expr parsed.root).events

variable {before : List Event} {limit depth : Nat} {s s' : State} {t : Token} {e : Expr}
  {chain : Chain} {hole : ExprHole} {place : SelectorHole} {path : Path} {head : StepHead}

/-! ## Operators -/

namespace Traced

/-- The expression has the events `before` and those noted on the way to it. -/
def Builds (before : List Event) (o : Traced Expr) : Prop :=
  (Node.expr o.value).events = before ++ o.events

theorem Builds.events_value {o : Traced Expr} (h : o.Builds before) :
    (Node.expr o.value).events = before ++ o.events := h

theorem builds_pure (e : Expr) : Builds (Node.expr e).events (pure e) :=
  (List.append_nil _).symm

theorem builds_note {event : Event} (h : (Node.expr e).events = before ++ [event]) :
    (note event e).Builds before := h

/-- An expression that is built around another one has the events of that one, and then its own. -/
theorem Builds.bind {outer : List Event} {x : Traced Expr} {f : Expr → Traced Expr}
    (h : x.Builds before) (hf : (f x.value).Builds (outer ++ (Node.expr x.value).events)) :
    Builds (outer ++ before) (x >>= f) := by
  rw [Builds, value_bind, events_bind, hf.events_value, h.events_value]
  simp only [List.append_assoc]

end Traced

namespace Chain

/-- The operands of a level keep their order. -/
theorem events_unroll {Op : Type} (before : List (Expr × Op)) (last : Expr)
    (rest : List (Op × Expr)) :
    (Node.expr (unroll before last rest).1).events ++
        ((unroll before last rest).2.map fun x => .expr x.2).flatMap Node.events =
      backlog (before.map fun x => .expr x.1) ++
        ((Node.expr last).events ++ (rest.map fun x => .expr x.2).flatMap Node.events) := by
  induction before generalizing last rest with
  | nil => rfl
  | cons x before ih =>
    rw [unroll, ih]
    simp

theorem builds_product (c : Chain) (e : Expr) : (c.product e).Builds
    (backlog (c.factors.map fun x => .expr x.1) ++ (Node.expr e).events) := by
  unfold product
  split
  · rename_i hfactors
    rw [hfactors]
    exact Traced.builds_pure e
  · refine Traced.builds_note ?_
    rw [Node.events_eq, Node.parts, List.flatMap_cons, events_unroll]
    simp [Node.event?]

theorem builds_sum (c : Chain) (e : Expr) : (c.sum e).Builds
    (backlog (c.terms.map fun x => .expr x.1) ++
      (backlog (c.factors.map fun x => .expr x.1) ++ (Node.expr e).events)) := by
  refine (c.builds_product e).bind ?_
  split
  · rename_i hterms
    rw [hterms]
    exact Traced.builds_pure _
  · refine Traced.builds_note ?_
    rw [Node.events_eq, Node.parts, List.flatMap_cons, events_unroll]
    simp [Node.event?]

theorem builds_comparison (c : Chain) (e : Expr) : (c.comparison e).Builds
    (backlog (c.compared.toList.map fun x => .expr x.1) ++
      (backlog (c.terms.map fun x => .expr x.1) ++
        (backlog (c.factors.map fun x => .expr x.1) ++ (Node.expr e).events))) := by
  refine (c.builds_sum e).bind ?_
  split
  · rename_i hcompared
    rw [hcompared]
    exact Traced.builds_pure _
  · rename_i left op hcompared
    refine Traced.builds_note ?_
    rw [Node.events_eq]
    simp [Node.parts, Node.event?, hcompared]

theorem builds_conjunction (c : Chain) (e : Expr) : (c.conjunction e).Builds
    (backlog (c.conjuncts.map .expr) ++ (backlog (c.compared.toList.map fun x => .expr x.1) ++
      (backlog (c.terms.map fun x => .expr x.1) ++
        (backlog (c.factors.map fun x => .expr x.1) ++ (Node.expr e).events)))) := by
  refine (c.builds_comparison e).bind ?_
  split
  · rename_i hconjuncts
    rw [hconjuncts]
    exact Traced.builds_pure _
  · refine Traced.builds_note ?_
    rw [Node.events_eq]
    simp [Node.parts, Node.event?, backlog, List.map_reverse]

theorem builds_disjunction (c : Chain) (e : Expr) :
    (c.disjunction e).Builds (c.noted ++ (Node.expr e).events) := by
  simp only [noted, List.append_assoc]
  refine (c.builds_conjunction e).bind ?_
  split
  · rename_i hdisjuncts
    rw [hdisjuncts]
    exact Traced.builds_pure _
  · refine Traced.builds_note ?_
    rw [Node.events_eq]
    simp [Node.parts, Node.event?, backlog, List.map_reverse]

@[simp] theorem noted_empty : empty.noted = [] := rfl

/-- An operator keeps the operand before it, with what it closes. -/
theorem noted_push {c c' : Chain} {op : Operator} (h : (c.push e op).value = some c') :
    c'.noted = c.noted ++ ((Node.expr e).events ++ (c.push e op).events) := by
  cases op with
  | multiplicative op =>
    obtain rfl := Option.some.inj h
    simp [push, noted]
  | additive op =>
    have hproduct := (c.builds_product e).events_value
    obtain rfl := Option.some.inj h
    simp [push, noted, hproduct]
  | relational op =>
    have hsum := (c.builds_sum e).events_value
    simp only [push, Traced.value_bind] at h
    split at h
    · rename_i hcompared
      obtain rfl := Option.some.inj h
      simp [push, noted, hcompared, hsum]
    · cases h
  | and =>
    have hcomparison := (c.builds_comparison e).events_value
    obtain rfl := Option.some.inj h
    simp [push, noted, empty, hcomparison]
  | or =>
    have hconjunction := (c.builds_conjunction e).events_value
    obtain rfl := Option.some.inj h
    simp [push, noted, empty, hconjunction]

end Chain

/-! ## Paths -/

@[simp] theorem Path.noted_nil (isAbsolute : Bool) : (Path.mk isAbsolute []).noted = [] := rfl

@[simp] theorem Path.noted_push (p : Path) (s : Step) :
    (p.push s).noted = p.noted ++ (Node.step s).events := by
  simp [push, noted]

@[simp] theorem Path.events_toSelector (p : Path) :
    (Node.selector p.toSelector).events = p.noted := by
  simp [toSelector, noted, backlog, ← List.map_reverse, List.flatMap_map]

@[simp] theorem StepHead.events_toStep (head : StepHead) (p : Predicate) :
    (Node.step (head.toStep p)).events = (Node.predicate p).events :=
  Node.events_named _ _ p

/-! ## Outcomes -/

/-- If the token is taken, the events on the way are what the next state has after `before`. -/
def Outcome.Notes (before : List Event) (o : Outcome) : Prop :=
  ∀ s', o.value = .ok s' → s'.noted = before ++ o.events

namespace Outcome

theorem notes_refuse (x : Expectation) (t : Token) : (refuse x t).Notes before := by
  intro s' h
  cases h

theorem notes_go (h : s'.noted = before) : (go s').Notes before := by
  intro s'' hgo
  obtain rfl := Except.ok.inj hgo
  rw [h, go, Traced.events_pure, List.append_nil]

theorem Notes.within {o : Outcome} (h : o.Notes before) :
    (within limit depth t o).Notes before := by
  unfold Outcome.within
  split
  · intro s' herror
    cases herror
  · exact h

theorem Notes.congr {before' : List Event} {o : Outcome} (h : o.Notes before)
    (heq : before = before') : o.Notes before' := by
  rwa [← heq]

/-- What is noted first stands before the rest. -/
theorem notes_bind {α : Type} {x : Traced α} {f : α → Outcome}
    (h : (f x.value).Notes (before ++ x.events)) : Notes before (x >>= f) := by
  intro s' hs'
  rw [Traced.events_bind, ← List.append_assoc]
  exact h s' hs'

end Outcome

/-! ## Ends -/

theorem ExprHole.resume_notes :
    (hole.resume e t).Notes (hole.noted ++ (Node.expr e).events) := by
  cases hole with
  | root | group | filter =>
    simp only [resume]
    split
    · exact notes_go (by simp [State.noted, noted])
    · exact notes_refuse _ _
  | argument =>
    simp only [resume]
    split
    · exact notes_go (by simp [State.noted, noted])
    · exact notes_go (by simp [State.noted, noted, backlog, List.flatMap_map, ← List.map_reverse])
    · exact notes_refuse _ _

theorem afterOperand_notes :
    (afterOperand e chain hole t).Notes (hole.noted ++ (chain.noted ++ (Node.expr e).events)) := by
  unfold afterOperand
  split
  · rename_i op hop
    refine notes_bind ?_
    split
    · rename_i chain' hpush
      exact notes_go (by simp [State.noted, Chain.noted_push hpush])
    · exact notes_refuse _ _
  · refine notes_bind ?_
    rw [List.append_assoc, ← (chain.builds_disjunction e).events_value]
    exact ExprHole.resume_notes

theorem SelectorHole.resume_notes {s : Selector} :
    (place.resume s t).Notes (place.noted ++ (Node.selector s).events) := by
  cases place with
  | operand chain outer =>
    simp only [resume]
    split
    · rename_i hpipe
      obtain rfl := Chain.eq_empty hpipe.1
      exact notes_go (by simp [State.noted, noted])
    · rw [noted, List.append_assoc, ← Node.events_selector]
      exact afterOperand_notes
  | member before outer =>
    simp only [resume]
    split
    · exact notes_go (by simp [State.noted, noted])
    · refine notes_bind ?_
      have hunion : (Node.expr (.union (s :: before).reverse)).events =
          backlog (before.map .selector) ++ ((Node.selector s).events ++
            [.union (before.length + 1)]) := by
        rw [Node.events_eq]
        simp [Node.parts, Node.event?, backlog, List.map_reverse]
      rw [noted, Traced.value_note, Traced.events_note, List.append_assoc, List.append_assoc,
        ← hunion]
      exact ExprHole.resume_notes
  | _ =>
    simp only [resume]
    split
    · exact notes_go (by simp [State.noted, noted])
    · exact notes_refuse _ _

theorem afterStep_notes : (afterStep path place t).Notes (place.noted ++ path.noted) := by
  unfold afterStep
  split
  · exact notes_go rfl
  · exact SelectorHole.resume_notes.congr (by rw [Path.events_toSelector])

theorem afterStepName_notes :
    (afterStepName head path place t).Notes (place.noted ++ path.noted) := by
  unfold afterStepName
  split
  · exact notes_go rfl
  · exact afterStep_notes.congr (by simp)

theorem afterFirstName_notes {isAttribute : Bool} {name : String} :
    (afterFirstName isAttribute name path place t).Notes (place.noted ++ path.noted) := by
  unfold afterFirstName
  split
  · exact notes_go rfl
  · exact afterStepName_notes

/-! ## Beginnings -/

theorem beginStep_notes : (beginStep path place t).Notes (place.noted ++ path.noted) := by
  unfold beginStep
  split
  case h_6 => exact notes_refuse _ _
  all_goals exact notes_go (by simp [State.noted])

theorem beginSelector_notes : (beginSelector place t).Notes place.noted := by
  unfold beginSelector
  split
  case h_3 => exact beginStep_notes.congr (by simp)
  all_goals exact notes_go (by simp [State.noted])

theorem beginConstant_notes : (beginConstant chain hole t).Notes (hole.noted ++ chain.noted) := by
  unfold beginConstant
  split
  · exact notes_go (by simp [State.noted])
  · exact notes_refuse _ _

theorem beginOperand_notes : (beginOperand chain hole t).Notes (hole.noted ++ chain.noted) := by
  unfold beginOperand
  split
  case h_7 =>
    split
    · exact beginSelector_notes
    · exact notes_refuse _ _
  case h_4 | h_5 | h_6 => exact notes_go rfl
  all_goals exact beginConstant_notes

theorem beginExpression_notes : (beginExpression limit hole t).Notes hole.noted :=
  (beginOperand_notes.congr (by rw [Chain.noted_empty, List.append_nil])).within

/-! ## Texts -/

/-- What a token notes is what the state has more than before. -/
theorem State.step_notes (limit : Nat) (s : State) (t : Token) :
    (s.step limit t).Notes s.noted := by
  cases s with
  | expressionDue hole => exact beginExpression_notes
  | operandDue chain hole => exact beginOperand_notes
  | dollar chain hole =>
    simp only [step]
    split
    case h_3 => exact notes_refuse _ _
    all_goals exact notes_go (by simp [noted, SelectorHole.noted])
  | dollarName name chain hole =>
    simp only [step]
    split
    · exact notes_go rfl
    · exact afterOperand_notes.congr (by simp [noted])
  | leadingName name chain hole =>
    simp only [step]
    split
    · exact notes_go rfl
    · exact afterFirstName_notes.congr (by simp [noted, SelectorHole.noted])
  | callOpened withDollar name chain hole =>
    simp only [step]
    split
    · exact notes_go (by simp [noted])
    · exact beginExpression_notes.congr (by simp [noted, ExprHole.noted])
  | operandDone e chain hole => exact afterOperand_notes
  | scopedDue place => exact beginSelector_notes.within
  | selectorDue place => exact beginSelector_notes
  | selectorDollar place =>
    simp only [step]
    split
    · exact notes_go (by simp [noted, SelectorHole.noted])
    · exact notes_refuse _ _
  | selectorDone s place => exact SelectorHole.resume_notes
  | stepDue path place => exact beginStep_notes
  | nodeNameDue | localNameDue =>
    simp only [step]
    split
    case h_3 => exact notes_refuse _ _
    all_goals exact notes_go rfl
  | firstName isAttribute name path place => exact afterFirstName_notes
  | stepName head path place => exact afterStepName_notes
  | bracket head path place =>
    simp only [step]
    split
    · exact notes_go (by simp [noted])
    · split
      · exact notes_go rfl
      · exact beginExpression_notes
  | bracketNumber number head path place =>
    simp only [step]
    split
    · split
      · exact notes_go rfl
      · exact notes_refuse _ _
    · refine Notes.within ?_
      split
      · exact afterOperand_notes.congr (by simp [noted, ExprHole.noted])
      · exact notes_refuse _ _
  | indexed i head path place =>
    simp only [step]
    split
    · exact notes_go (by simp [noted])
    · exact afterStep_notes.congr (by simp [noted])
  | filtered f head path place =>
    simp only [step]
    split
    · exact notes_go rfl
    · exact afterStep_notes.congr (by simp [noted])
  | secondBracket f head path place =>
    simp only [step]
    split
    · split
      · exact notes_go rfl
      · exact notes_refuse _ _
    · exact notes_refuse _ _
  | secondIndex f i head path place =>
    simp only [step]
    split
    · exact notes_go (by simp [noted])
    · exact notes_refuse _ _
  | stepDone path place => exact afterStep_notes
  | accepted parsed => exact notes_go rfl

theorem read_notes (limit : Nat) (s : State) (ts : List Token) :
    (read limit s ts).Notes s.noted := by
  induction ts generalizing s with
  | nil => exact notes_go rfl
  | cons t ts ih =>
    intro s' h
    have hstep := s.step_notes limit t
    rw [read] at h ⊢
    cases hvalue : (s.step limit t).value with
    | error e => simp [hvalue] at h
    | ok s₁ =>
      simp only [hvalue] at h ⊢
      rw [← List.append_assoc, ← hstep s₁ hvalue]
      exact ih s₁ s' h

end MapExpr.Parse
