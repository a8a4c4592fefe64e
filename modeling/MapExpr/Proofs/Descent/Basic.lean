import MapExpr.ParseError
import MapExpr.Token.Basic

/-!
# Descents

An expression can also be read by descent: every rule of the grammar is a procedure of its own,
which looks a few tokens ahead, takes what belongs to it and calls the procedures of its parts. A
descent has a cursor, which counts the tokens taken and the levels of nesting entered.

* `Activation`: a call of a rule, with the cursors at its beginning and end and the calls in it;
* `Stop`: why a descent ends without a value. Besides the faults of a text there are the ends that
  no text has: a cut inside a character, a branch that only guards against the impossible, and a
  recursion that was given too few levels;
* `Descent`: a computation with a cursor that records its calls;
* `Input.peek` to `Input.arguments`: what the rules are made of.
-/

namespace MapExpr

namespace Descent

/-- Where a descent stands. -/
structure Cursor where
  /-- The tokens that have been taken. -/
  pos : Nat
  /-- The levels of nesting that have been entered and not left. -/
  depth : Nat
deriving DecidableEq, Repr

namespace Cursor

/-- One more token has been taken. -/
def next (c : Cursor) : Cursor :=
  { c with pos := c.pos + 1 }

/-- `cost` more levels have been entered. -/
def deepen (c : Cursor) (cost : Nat) : Cursor :=
  { c with depth := c.depth + cost }

/-- `cost` levels have been left. -/
def lift (c : Cursor) (cost : Nat) : Cursor :=
  { c with depth := c.depth - cost }

@[simp] theorem pos_next (c : Cursor) : c.next.pos = c.pos + 1 := rfl

@[simp] theorem depth_next (c : Cursor) : c.next.depth = c.depth := rfl

@[simp] theorem pos_deepen (c : Cursor) (cost : Nat) : (c.deepen cost).pos = c.pos := rfl

@[simp] theorem depth_deepen (c : Cursor) (cost : Nat) :
    (c.deepen cost).depth = c.depth + cost := rfl

@[simp] theorem pos_lift (c : Cursor) (cost : Nat) : (c.lift cost).pos = c.pos := rfl

@[simp] theorem depth_lift (c : Cursor) (cost : Nat) : (c.lift cost).depth = c.depth - cost := rfl

end Cursor

/-- The loops of the rules. -/
inductive Loop
  | members | disjuncts | conjuncts | terms | factors | arguments | steps
deriving DecidableEq, Repr

/-- What can be called: the rules of the grammar, what stands in brackets that count for `cost`
levels, and one round of a loop. -/
inductive Rule
  | main | expression | union | disjunction | conjunction | comparison | sum | product | primary
  | constant | functionCall | selector | step | nodeName | predicate | index | filter
  | nested (cost : Nat)
  | round (loop : Loop)
deriving DecidableEq, Repr

/-- A call of a rule that has ended, with a value if `completed`. -/
structure Activation where
  rule : Rule
  entry : Cursor
  exit : Cursor
  completed : Bool
  /-- The calls made directly in it, oldest first. -/
  inner : List Activation

/-- The branches that only guard against what no text has. -/
inductive Fallback
  /-- The rest of a text has no lexeme and no character either. -/
  | emptyRest
  /-- A number is not written as one. -/
  | number
  /-- A constant begins with a token that is none. -/
  | constant
  /-- There is not even an end marker. -/
  | noMarker
deriving DecidableEq, Repr

/-- Why a descent ends without a value. -/
inductive Stop
  | fault (e : ParseError)
  /-- A text is cut where no character ends, or behind its end. -/
  | badCut
  | fallback (branch : Fallback)
  /-- The recursion was given too few levels, or a loop too few rounds. -/
  | exhausted
deriving DecidableEq, Repr

/-- What a computation ends with, where it ends, and the calls made in it, oldest first. -/
structure Run (α : Type) where
  result : Except Stop α
  cursor : Cursor
  calls : List Activation

end Descent

open Descent

/-- A computation with a cursor, which also has one where it stops. -/
def Descent (α : Type) :=
  Cursor → Run α

namespace Descent

variable {α β : Type} {c : Cursor}

instance : Monad Descent where
  pure a c := ⟨.ok a, c, []⟩
  bind x f c :=
    let here := x c
    match here.result with
    | .ok a =>
      let later := f a here.cursor
      ⟨later.result, later.cursor, here.calls ++ later.calls⟩
    | .error stop => ⟨.error stop, here.cursor, here.calls⟩

/-- Ends without a value. -/
def stop (why : Stop) : Descent α :=
  fun c => ⟨.error why, c, []⟩

/-- Calls a rule: what `x` does is recorded as one activation. -/
def activate (rule : Rule) (x : Descent α) : Descent α :=
  fun c =>
    let body := x c
    ⟨body.result, body.cursor, [⟨rule, c, body.cursor, body.result.isOk, body.calls⟩]⟩

theorem pure_apply (a : α) (c : Cursor) : (pure a : Descent α) c = ⟨.ok a, c, []⟩ := rfl

theorem bind_of_ok {x : Descent α} {a : α} (f : α → Descent β) (h : (x c).result = .ok a) :
    (x >>= f) c = ⟨(f a (x c).cursor).result, (f a (x c).cursor).cursor,
      (x c).calls ++ (f a (x c).cursor).calls⟩ := by
  simp only [bind, h]

theorem bind_of_error {x : Descent α} {why : Stop} (f : α → Descent β)
    (h : (x c).result = .error why) : (x >>= f) c = ⟨.error why, (x c).cursor, (x c).calls⟩ := by
  simp only [bind, h]

/-- The tokens to be read, the marker that ends them, and the deepest nesting that is followed. -/
structure Input where
  tokens : List Token
  marker : Token
  limit : Nat

namespace Input

variable (inp : Input)

/-- The token in a place, or the marker behind all tokens. -/
def tokenAt (i : Nat) : Token :=
  inp.tokens[i]?.getD inp.marker

/-- The token after `n` others. -/
def peekNth (n : Nat) : Descent Token :=
  fun c => ⟨.ok (inp.tokenAt (c.pos + n)), c, []⟩

/-- The next token. -/
def peek : Descent Token :=
  inp.peekNth 0

/-- Takes the next token, unless it is an end marker. -/
def advance : Descent Token :=
  fun c =>
    let t := inp.tokenAt c.pos
    ⟨.ok t, if t.kind = .eof then c else c.next, []⟩

/-- Takes the next token if it is of the kind `k`. -/
def eat (k : Kind) : Descent (Option Token) := do
  if (← inp.peek).kind = k then
    let t ← inp.advance
    pure (some t)
  else pure none

/-- The next token is not what is due. -/
def unexpected (expected : String) : Descent α := do
  let t ← inp.peek
  stop (.fault (.unexpectedToken t.start expected t.describe))

/-- Takes the next token, which has to be of the kind `k`. -/
def expect (k : Kind) (expected : String) : Descent Token := do
  match ← inp.eat k with
  | some t => pure t
  | none => inp.unexpected expected

/-- Enters `cost` levels for `x`, and leaves them again however `x` ends. -/
def nestedBy (cost : Nat) (x : Descent α) : Descent α :=
  activate (.nested cost) fun c =>
    if inp.limit < c.depth + cost then
      ⟨.error (.fault (.depthExceeded (inp.tokenAt c.pos).start inp.limit)), c, []⟩
    else
      let body := x (c.deepen cost)
      { body with cursor := body.cursor.lift cost }

/-- As long as the next token passes the test, takes it and goes on with what follows it. -/
def whileAhead (loop : Loop) (test : Kind → Option β) (body : α → β → Descent α) :
    Nat → α → Descent α
  | 0, _ => stop .exhausted
  | n + 1, a => do
    match test (← inp.peek).kind with
    | none => pure a
    | some b =>
      let a ← activate (.round loop) do
        let _ ← inp.advance
        body a b
      whileAhead loop test body n a

end Input

end Descent

end MapExpr
