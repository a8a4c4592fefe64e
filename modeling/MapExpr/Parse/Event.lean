import MapExpr.Expr.Basic

/-!
# Events

The reader notes every operator node when it is complete, the inner ones before the outer ones.

* `Event.message`: the text of an event;
* `Traced`: a value with the events noted on the way to it.
-/

namespace MapExpr

/-- The name of a comparison in messages. -/
def RelationalOp.name : RelationalOp → String
  | less => "Less"
  | greater => "Greater"
  | lessEqual => "LessEqual"
  | greaterEqual => "GreaterEqual"
  | equal => "Equal"
  | notEqual => "NotEqual"

namespace Parse

/-- An operator node is complete. -/
inductive Event
  | multiplicative (operands : Nat)
  | additive (operands : Nat)
  | comparison (op : RelationalOp)
  | and (operands : Nat)
  | or (operands : Nat)
  | union (selectors : Nat)
deriving DecidableEq, Repr

def Event.message : Event → String
  | multiplicative n => "multiplicative chain of " ++ toString n ++ " operands"
  | additive n => "additive chain of " ++ toString n ++ " operands"
  | comparison op => "comparison " ++ op.name
  | and n => "and-chain of " ++ toString n ++ " operands"
  | or n => "or-chain of " ++ toString n ++ " operands"
  | union n => "union of " ++ toString n ++ " selectors"

/-- A value and the events noted on the way to it, oldest first. -/
structure Traced (α : Type) where
  value : α
  events : List Event

namespace Traced

variable {α β : Type}

/-- Notes `event` and gives `value`. -/
def note (event : Event) (value : α) : Traced α :=
  ⟨value, [event]⟩

instance : Monad Traced where
  pure a := ⟨a, []⟩
  bind x f :=
    let y := f x.value
    ⟨y.value, x.events ++ y.events⟩

@[simp] theorem value_pure (a : α) : (pure a : Traced α).value = a := rfl

@[simp] theorem events_pure (a : α) : (pure a : Traced α).events = [] := rfl

@[simp] theorem value_bind (x : Traced α) (f : α → Traced β) :
    (x >>= f).value = (f x.value).value := rfl

@[simp] theorem events_bind (x : Traced α) (f : α → Traced β) :
    (x >>= f).events = x.events ++ (f x.value).events := rfl

@[simp] theorem value_note (event : Event) (a : α) : (note event a).value = a := rfl

@[simp] theorem events_note (event : Event) (a : α) : (note event a).events = [event] := rfl

end Traced

end Parse

end MapExpr
