import MapExpr.Parse.Event
import MapExpr.Proofs.Expr.Nodes

/-!
# Post-order

The nodes of a tree, each after all its parts, and the parts from left to right.

* `Node.postorder`: the nodes in this order;
* `Node.event?`, `Node.events`: the operator nodes among them, as the events of their completion;
* `Node.events_eq`: the events of a node are those of its parts and then its own, for which most
  nodes have none.
-/

namespace MapExpr.Node

open Parse (Event)

variable {x y : Node}

theorem sizeOf_operand_lt {Op : Type} {es : List (Op × Expr)} {p : Op × Expr} (h : p ∈ es) :
    sizeOf p.2 < sizeOf es := by
  obtain ⟨op, e⟩ := p
  have hlt := List.sizeOf_lt_of_mem h
  rw [Prod.mk.sizeOf_spec] at hlt
  show sizeOf e < sizeOf es
  omega

theorem sizeOf_lt_of_mem_parts (h : x ∈ y.parts) : sizeOf x < sizeOf y := by
  rcases y with (_ | _ | _ | _ | _ | es | es | ⟨o, e, f⟩ | ⟨e, es⟩ | ⟨e, es⟩ | ss) | ⟨o, n, es⟩ |
    (⟨a, ss⟩ | s) | (_ | _ | ⟨a, n, p⟩) | (_ | _ | _ | _) | (_ | _ | _ | _)
  all_goals simp only [parts, List.mem_cons, List.mem_map, List.not_mem_nil, or_false] at h
  -- what is left is that the part stands in the node, or in a list that does
  all_goals grind [→ List.sizeOf_lt_of_mem, → sizeOf_operand_lt]

/-- The nodes of a tree, each after its parts. -/
def postorder (x : Node) : List Node :=
  x.parts.attach.flatMap (fun y => postorder y.1) ++ [x]
termination_by sizeOf x
decreasing_by exact sizeOf_lt_of_mem_parts y.2

theorem postorder_eq (x : Node) : x.postorder = x.parts.flatMap postorder ++ [x] := by
  rw [postorder, List.flatMap_subtype (g := postorder) fun _ _ => rfl, List.unattach_attach]

/-- The nodes of the order are those in the tree. -/
theorem mem_postorder_iff : x ∈ y.postorder ↔ x.Inside y := by
  constructor
  · intro h
    induction y using postorder.induct with
    | case1 y ih =>
      rw [postorder_eq, List.mem_append, List.mem_flatMap, List.mem_singleton] at h
      obtain ⟨z, hz, hx⟩ | rfl := h
      · exact (ih ⟨z, hz⟩ hx).tail hz
      · exact .refl
  · intro h
    induction h with
    | refl =>
      rw [postorder_eq]
      exact List.mem_append_right _ (List.mem_singleton_self _)
    | tail _ hpart ih =>
      rw [postorder_eq]
      exact List.mem_append_left _ (List.mem_flatMap_of_mem hpart ih)

/-- An operator node with the number of its operands, a comparison with its operator. -/
def event? : Node → Option Event
  | .expr (.or es) => some (.or es.length)
  | .expr (.and es) => some (.and es.length)
  | .expr (.comparison op _ _) => some (.comparison op)
  | .expr (.additive _ rest) => some (.additive (rest.length + 1))
  | .expr (.multiplicative _ rest) => some (.multiplicative (rest.length + 1))
  | .expr (.union ss) => some (.union ss.length)
  | _ => none

/-- The operator nodes of a tree, each after those in its parts. -/
def events (x : Node) : List Event :=
  x.postorder.filterMap event?

theorem events_eq (x : Node) : x.events = x.parts.flatMap events ++ x.event?.toList := by
  have hself : [x].filterMap event? = x.event?.toList := by
    cases h : x.event? <;> simp [h]
  rw [events, postorder_eq, List.filterMap_append, List.filterMap_flatMap, hself]
  rfl

/-! ## Nodes without an event of their own -/

theorem events_of_event?_eq_none (h : x.event? = none) :
    x.events = x.parts.flatMap events := by
  rw [events_eq, h, Option.toList_none, List.append_nil]

@[simp] theorem events_constant (c : Constant) : (Node.expr (.constant c)).events = [] :=
  events_of_event?_eq_none rfl

@[simp] theorem events_variableRef (name : String) : (Node.expr (.variableRef name)).events = [] :=
  events_of_event?_eq_none rfl

@[simp] theorem events_call (withDollar : Bool) (name : String) (es : List Expr) :
    (Node.expr (.call (.mk withDollar name es))).events =
      es.flatMap fun e => (Node.expr e).events := by
  rw [events_of_event?_eq_none rfl, parts, List.flatMap_singleton,
    events_of_event?_eq_none rfl, parts, List.flatMap_map]

@[simp] theorem events_group (e : Expr) :
    (Node.expr (.group e)).events = (Node.expr e).events := by
  rw [events_of_event?_eq_none rfl, parts, List.flatMap_singleton]

@[simp] theorem events_selector (s : Selector) :
    (Node.expr (.selector s)).events = (Node.selector s).events := by
  rw [events_of_event?_eq_none rfl, parts, List.flatMap_singleton]

@[simp] theorem events_steps (isAbsolute : Bool) (steps : List Step) :
    (Node.selector (.steps isAbsolute steps)).events =
      steps.flatMap fun s => (Node.step s).events := by
  rw [events_of_event?_eq_none rfl, parts, List.flatMap_map]

@[simp] theorem events_scoped (s : Selector) :
    (Node.selector (.scoped s)).events = (Node.selector s).events := by
  rw [events_of_event?_eq_none rfl, parts, List.flatMap_singleton]

@[simp] theorem events_parent : (Node.step .parent).events = [] :=
  events_of_event?_eq_none rfl

@[simp] theorem events_current : (Node.step .current).events = [] :=
  events_of_event?_eq_none rfl

@[simp] theorem events_named (isAttribute : Bool) (name : QName) (p : Predicate) :
    (Node.step (.named isAttribute name p)).events = (Node.predicate p).events := by
  rw [events_of_event?_eq_none rfl, parts, List.flatMap_singleton]

@[simp] theorem events_absent : (Node.predicate .absent).events = [] :=
  events_of_event?_eq_none rfl

@[simp] theorem events_index (i : Index) : (Node.predicate (.index i)).events = [] :=
  events_of_event?_eq_none rfl

@[simp] theorem events_filter (f : Filter) :
    (Node.predicate (.filter f)).events = (Node.filter f).events := by
  rw [events_of_event?_eq_none rfl, parts, List.flatMap_singleton]

@[simp] theorem events_filterThenIndex (f : Filter) (i : Index) :
    (Node.predicate (.filterThenIndex f i)).events = (Node.filter f).events := by
  rw [events_of_event?_eq_none rfl, parts, List.flatMap_singleton]

@[simp] theorem events_empty : (Node.filter .empty).events = [] :=
  events_of_event?_eq_none rfl

@[simp] theorem events_operator (e : Expr) :
    (Node.filter (.operator e)).events = (Node.expr e).events := by
  rw [events_of_event?_eq_none rfl, parts, List.flatMap_singleton]

/-- A filter that is a call or a selector holds it without an expression around it. -/
@[simp] theorem events_ofExpr (e : Expr) :
    (Node.filter (.ofExpr e)).events = (Node.expr e).events := by
  cases e with
  | call | selector =>
    rw [events_of_event?_eq_none rfl, events_of_event?_eq_none rfl]
    rfl
  | _ => exact events_operator _

end MapExpr.Node
