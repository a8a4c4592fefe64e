import MapExpr.Expr.Basic
import MapExpr.Name
import MapExpr.Parse.Hole
import MapExpr.Token.Basic

/-!
# Well-formed expressions

What the text of an expression can carry. An operand binds more tightly than its operator, chains
have as many operands as their operators need, names are names and no keywords, a literal leaves
one of the two quotes to its own, and calls and bare selectors in a filter are kept as such.

* `Expr.isWellFormed`: these conditions, for every node;
* `Expr.numbers`: the numbers among the constants;
* `Expr.nesting`, `Expr.need`: how deeply the brackets nest, where a filter counts four times, and
  the limit that this takes.

A list of operands is looked at as a whole, one operand after the other, and the lemmas say what a
further operand at its end adds.
-/

namespace MapExpr

namespace Name

/-- A name that is no keyword. -/
def isFree (x : String) : Bool :=
  match x.toList with
  | [] => false
  | c :: s => isStart c && s.all isPart && (Kind.keyword? x).isNone

end Name

/-- Contents that lack one of the two quotes. -/
def Constant.isWellFormed : Constant → Bool
  | number _ | system => true
  | literal contents => !(contents.contains '\x27' && contents.contains '"')

def LocalName.isWellFormed : LocalName → Bool
  | wildcard => true
  | name x => Name.isFree x

def QName.isWellFormed (x : QName) : Bool :=
  x.qualifier.all Name.isFree && x.localName.isWellFormed

namespace Expr

/-- How tightly an expression is bound: the level of its outermost operator, from the union, which
is no operand at all, to the primaries. -/
def strength : Expr → Nat
  | union _ => 0
  | or _ => 1
  | and _ => 2
  | comparison .. => 3
  | additive .. => 4
  | multiplicative .. => 5
  | constant _ | variableRef _ | call _ | group _ | selector _ => 6

section Strength

variable (c : Constant) (x : String) (call : Call) (e f : Expr) (s : Selector) (es : List Expr)
  (op : RelationalOp) (as : List (AdditiveOp × Expr)) (ms : List (MultiplicativeOp × Expr))

@[simp] theorem strength_or : (or es).strength = 1 := rfl

@[simp] theorem strength_and : (and es).strength = 2 := rfl

@[simp] theorem strength_comparison : (comparison op e f).strength = 3 := rfl

@[simp] theorem strength_additive : (additive e as).strength = 4 := rfl

@[simp] theorem strength_multiplicative : (multiplicative e ms).strength = 5 := rfl

@[simp] theorem strength_constant : (constant c).strength = 6 := rfl

@[simp] theorem strength_variableRef : (variableRef x).strength = 6 := rfl

@[simp] theorem strength_call : (Expr.call call).strength = 6 := rfl

@[simp] theorem strength_group : (group e).strength = 6 := rfl

@[simp] theorem strength_selector : (selector s).strength = 6 := rfl

end Strength

/-- An expression that a filter keeps by its own name. -/
def isBare : Expr → Bool
  | call _ | selector _ => true
  | _ => false

end Expr

/-! ## Well-formedness -/

mutual

def Expr.isWellFormed : Expr → Bool
  | .constant c => c.isWellFormed
  | .variableRef x => Name.isFree x
  | .call c => c.isWellFormed
  | .group e => e.isWellFormed
  | .selector s => s.isWellFormed
  | .or es => decide (2 ≤ es.length) && Expr.allWellFormed 2 es
  | .and es => decide (2 ≤ es.length) && Expr.allWellFormed 3 es
  | .comparison _ e f =>
    decide (4 ≤ e.strength) && e.isWellFormed && (decide (4 ≤ f.strength) && f.isWellFormed)
  | .additive e es =>
    !es.isEmpty && (decide (5 ≤ e.strength) && e.isWellFormed && Expr.sumsWellFormed es)
  | .multiplicative e es =>
    !es.isEmpty && (decide (6 ≤ e.strength) && e.isWellFormed && Expr.productsWellFormed es)
  | .union ss => decide (2 ≤ ss.length) && Selector.allWellFormed ss

/-- Every expression of a list is well formed and bound at least as tightly as `least`. -/
def Expr.allWellFormed (least : Nat) : List Expr → Bool
  | [] => true
  | e :: es => decide (least ≤ e.strength) && e.isWellFormed && Expr.allWellFormed least es

def Expr.sumsWellFormed : List (AdditiveOp × Expr) → Bool
  | [] => true
  | (_, e) :: es => decide (5 ≤ e.strength) && e.isWellFormed && Expr.sumsWellFormed es

def Expr.productsWellFormed : List (MultiplicativeOp × Expr) → Bool
  | [] => true
  | (_, e) :: es => decide (6 ≤ e.strength) && e.isWellFormed && Expr.productsWellFormed es

def Call.isWellFormed : Call → Bool
  | .mk _ x es => Name.isFree x && Expr.allWellFormed 0 es

def Selector.isWellFormed : Selector → Bool
  | .steps _ ss => !ss.isEmpty && Step.allWellFormed ss
  | .scoped s => s.isWellFormed

def Selector.allWellFormed : List Selector → Bool
  | [] => true
  | s :: ss => s.isWellFormed && Selector.allWellFormed ss

def Step.isWellFormed : Step → Bool
  | .parent | .current => true
  | .named _ x p => x.isWellFormed && p.isWellFormed

def Step.allWellFormed : List Step → Bool
  | [] => true
  | s :: ss => s.isWellFormed && Step.allWellFormed ss

def Predicate.isWellFormed : Predicate → Bool
  | .absent | .index _ => true
  | .filter f | .filterThenIndex f _ => f.isWellFormed

def Filter.isWellFormed : Filter → Bool
  | .empty => true
  | .call c => c.isWellFormed
  | .selector s => s.isWellFormed
  | .operator e => !e.isBare && e.isWellFormed

end

/-! ## Numbers -/

def Constant.numbers : Constant → List Binary64
  | number x => [x]
  | system | literal _ => []

mutual

/-- The numbers among the constants of an expression. -/
def Expr.numbers : Expr → List Binary64
  | .constant c => c.numbers
  | .variableRef _ => []
  | .call c => c.numbers
  | .group e => e.numbers
  | .selector s => s.numbers
  | .or es | .and es => Expr.allNumbers es
  | .comparison _ e f => e.numbers ++ f.numbers
  | .additive e es => e.numbers ++ Expr.sumNumbers es
  | .multiplicative e es => e.numbers ++ Expr.productNumbers es
  | .union ss => Selector.allNumbers ss

def Expr.allNumbers : List Expr → List Binary64
  | [] => []
  | e :: es => e.numbers ++ Expr.allNumbers es

def Expr.sumNumbers : List (AdditiveOp × Expr) → List Binary64
  | [] => []
  | (_, e) :: es => e.numbers ++ Expr.sumNumbers es

def Expr.productNumbers : List (MultiplicativeOp × Expr) → List Binary64
  | [] => []
  | (_, e) :: es => e.numbers ++ Expr.productNumbers es

def Call.numbers : Call → List Binary64
  | .mk _ _ es => Expr.allNumbers es

def Selector.numbers : Selector → List Binary64
  | .steps _ ss => Step.allNumbers ss
  | .scoped s => s.numbers

def Selector.allNumbers : List Selector → List Binary64
  | [] => []
  | s :: ss => s.numbers ++ Selector.allNumbers ss

def Step.numbers : Step → List Binary64
  | .parent | .current => []
  | .named _ _ p => p.numbers

def Step.allNumbers : List Step → List Binary64
  | [] => []
  | s :: ss => s.numbers ++ Step.allNumbers ss

def Predicate.numbers : Predicate → List Binary64
  | .absent | .index _ => []
  | .filter f | .filterThenIndex f _ => f.numbers

def Filter.numbers : Filter → List Binary64
  | .empty => []
  | .call c => c.numbers
  | .selector s => s.numbers
  | .operator e => e.numbers

end

/-! ## Nesting -/

open Parse (filterCost)

mutual

/-- How deeply an expression nests: a group, an argument and a scoped selector count once, and a
filter that is not empty counts `filterCost` times. -/
def Expr.nesting : Expr → Nat
  | .constant _ | .variableRef _ => 0
  | .call c => c.nesting
  | .group e => e.nesting + 1
  | .selector s => s.nesting
  | .or es | .and es => Expr.allNesting es
  | .comparison _ e f => max e.nesting f.nesting
  | .additive e es => max e.nesting (Expr.sumNesting es)
  | .multiplicative e es => max e.nesting (Expr.productNesting es)
  | .union ss => Selector.allNesting ss

def Expr.allNesting : List Expr → Nat
  | [] => 0
  | e :: es => max e.nesting (Expr.allNesting es)

def Expr.sumNesting : List (AdditiveOp × Expr) → Nat
  | [] => 0
  | (_, e) :: es => max e.nesting (Expr.sumNesting es)

def Expr.productNesting : List (MultiplicativeOp × Expr) → Nat
  | [] => 0
  | (_, e) :: es => max e.nesting (Expr.productNesting es)

/-- The nesting of arguments, each of which is nested once. -/
def Expr.argumentNesting : List Expr → Nat
  | [] => 0
  | e :: es => max (e.nesting + 1) (Expr.argumentNesting es)

def Call.nesting : Call → Nat
  | .mk _ _ es => Expr.argumentNesting es

def Selector.nesting : Selector → Nat
  | .steps _ ss => Step.allNesting ss
  | .scoped s => s.nesting + 1

def Selector.allNesting : List Selector → Nat
  | [] => 0
  | s :: ss => max s.nesting (Selector.allNesting ss)

def Step.nesting : Step → Nat
  | .parent | .current => 0
  | .named _ _ p => p.nesting

def Step.allNesting : List Step → Nat
  | [] => 0
  | s :: ss => max s.nesting (Step.allNesting ss)

def Predicate.nesting : Predicate → Nat
  | .absent | .index _ => 0
  | .filter f | .filterThenIndex f _ => f.nesting

def Filter.nesting : Filter → Nat
  | .empty => 0
  | .call c => c.nesting + filterCost
  | .selector s => s.nesting + filterCost
  | .operator e => e.nesting + filterCost

end

/-- The least limit that leaves room for an expression. -/
def Expr.need (e : Expr) : Nat :=
  1 + e.nesting

/-! ## Lists -/

section Append

variable (es fs : List Expr) (ss ts : List Selector) (ps qs : List Step)
  (as bs : List (AdditiveOp × Expr)) (ms ns : List (MultiplicativeOp × Expr))

@[simp] theorem Expr.allWellFormed_append (least : Nat) :
    Expr.allWellFormed least (es ++ fs) =
      (Expr.allWellFormed least es && Expr.allWellFormed least fs) := by
  induction es <;> simp_all [Expr.allWellFormed, Bool.and_assoc]

@[simp] theorem Expr.sumsWellFormed_append :
    Expr.sumsWellFormed (as ++ bs) = (Expr.sumsWellFormed as && Expr.sumsWellFormed bs) := by
  induction as <;> simp_all [Expr.sumsWellFormed, Bool.and_assoc]

@[simp] theorem Expr.productsWellFormed_append :
    Expr.productsWellFormed (ms ++ ns) =
      (Expr.productsWellFormed ms && Expr.productsWellFormed ns) := by
  induction ms <;> simp_all [Expr.productsWellFormed, Bool.and_assoc]

@[simp] theorem Selector.allWellFormed_append :
    Selector.allWellFormed (ss ++ ts) =
      (Selector.allWellFormed ss && Selector.allWellFormed ts) := by
  induction ss <;> simp_all [Selector.allWellFormed, Bool.and_assoc]

@[simp] theorem Step.allWellFormed_append :
    Step.allWellFormed (ps ++ qs) = (Step.allWellFormed ps && Step.allWellFormed qs) := by
  induction ps <;> simp_all [Step.allWellFormed, Bool.and_assoc]

@[simp] theorem Expr.allNumbers_append :
    Expr.allNumbers (es ++ fs) = Expr.allNumbers es ++ Expr.allNumbers fs := by
  induction es <;> simp_all [Expr.allNumbers]

@[simp] theorem Expr.sumNumbers_append :
    Expr.sumNumbers (as ++ bs) = Expr.sumNumbers as ++ Expr.sumNumbers bs := by
  induction as <;> simp_all [Expr.sumNumbers]

@[simp] theorem Expr.productNumbers_append :
    Expr.productNumbers (ms ++ ns) = Expr.productNumbers ms ++ Expr.productNumbers ns := by
  induction ms <;> simp_all [Expr.productNumbers]

@[simp] theorem Selector.allNumbers_append :
    Selector.allNumbers (ss ++ ts) = Selector.allNumbers ss ++ Selector.allNumbers ts := by
  induction ss <;> simp_all [Selector.allNumbers]

@[simp] theorem Step.allNumbers_append :
    Step.allNumbers (ps ++ qs) = Step.allNumbers ps ++ Step.allNumbers qs := by
  induction ps <;> simp_all [Step.allNumbers]

@[simp] theorem Expr.allNesting_append :
    Expr.allNesting (es ++ fs) = max (Expr.allNesting es) (Expr.allNesting fs) := by
  induction es <;> simp_all [Expr.allNesting, Nat.max_assoc]

@[simp] theorem Expr.sumNesting_append :
    Expr.sumNesting (as ++ bs) = max (Expr.sumNesting as) (Expr.sumNesting bs) := by
  induction as <;> simp_all [Expr.sumNesting, Nat.max_assoc]

@[simp] theorem Expr.productNesting_append :
    Expr.productNesting (ms ++ ns) = max (Expr.productNesting ms) (Expr.productNesting ns) := by
  induction ms <;> simp_all [Expr.productNesting, Nat.max_assoc]

@[simp] theorem Expr.argumentNesting_append :
    Expr.argumentNesting (es ++ fs) = max (Expr.argumentNesting es) (Expr.argumentNesting fs) := by
  induction es <;> simp_all [Expr.argumentNesting, Nat.max_assoc]

@[simp] theorem Selector.allNesting_append :
    Selector.allNesting (ss ++ ts) = max (Selector.allNesting ss) (Selector.allNesting ts) := by
  induction ss <;> simp_all [Selector.allNesting, Nat.max_assoc]

@[simp] theorem Step.allNesting_append :
    Step.allNesting (ps ++ qs) = max (Step.allNesting ps) (Step.allNesting qs) := by
  induction ps <;> simp_all [Step.allNesting, Nat.max_assoc]

end Append

end MapExpr
