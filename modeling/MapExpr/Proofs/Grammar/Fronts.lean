import Mathlib.Computability.Language
import Mathlib.Order.CompletePartialOrder
import Mathlib.Order.ConditionallyCompleteLattice.Basic
import MapExpr.Proofs.Grammar.Chains

/-!
# Fronts

The words that lead a reader to a state. What a reader has read is in its state, so each state has
a language of its own: the words before the present place, of which every part is a text of some
category.

* `text c t`: the texts of a category that stand for `t`, with any nesting;
* `Chain.front`, `Path.front`, `ExprHole.front`, `SelectorHole.front`: the words before a place;
* `State.front`: the words that lead to a state;
* `Chain.front_mul_le`, `Chain.push_front`: what the operands of a chain make with one more.
-/

namespace MapExpr

namespace Grammar

/-- The texts of a category that stand for `t`. -/
def text (c : Category) (t : c.Tree) : Language Word :=
  { ws | ∃ n, Derives c ws t n }

/-- The words of a kind. -/
def symbol (k : Kind) : Language Word :=
  { ws | ∃ p, ws = [⟨k, p⟩] }

/-- A word of a kind, if it is there. -/
def mark (present : Bool) (k : Kind) : Language Word :=
  if present then symbol k else 1

def name (x : String) : Language Word :=
  {[⟨.identifier, x⟩]}

/-- The numbers that are an index. -/
def indexNumber (i : Index) : Language Word :=
  { ws | ∃ x, ws = [⟨.number, x⟩] ∧ Decimal.Integer.ofText? x = some i }

end Grammar

namespace Parse

open Grammar

/-- Some texts in a row before the present one, newest first: none, or a text that stands for all
of them and the mark after the last one. -/
def frontOf {α β : Type} (texts : β → List α → Language Word) (value : α → β) (mark : α → Kind) :
    List α → Language Word
  | [] => 1
  | x :: before => texts (value x) before * symbol (mark x)

/-! ## Operands -/

def disjunctFront : List Expr → Language Word :=
  frontOf (fun e before => text .disjuncts (e :: before).reverse) id fun _ => .orWord

def conjunctFront : List Expr → Language Word :=
  frontOf (fun e before => text .conjuncts (e :: before).reverse) id fun _ => .andWord

def comparedFront : Option (Expr × RelationalOp) → Language Word
  | none => 1
  | some (e, op) => text (.phrase .additive) e * symbol op.kind

def termFront : List (Expr × AdditiveOp) → Language Word :=
  frontOf (fun e before => text .terms (Chain.unroll before e [])) Prod.fst fun x => x.2.kind

def factorFront : List (Expr × MultiplicativeOp) → Language Word :=
  frontOf (fun e before => text .factors (Chain.unroll before e [])) Prod.fst fun x => x.2.kind

/-- The operands before the present one, with their operators. -/
def Chain.front (c : Chain) : Language Word :=
  disjunctFront c.disjuncts * (conjunctFront c.conjuncts * (comparedFront c.compared *
    (termFront c.terms * factorFront c.factors)))

/-! ## Steps -/

/-- The steps before the present one, with a slash after them. -/
def stepFront : List Step → Language Word :=
  frontOf (fun t before => text .steps (t :: before).reverse) id fun _ => .slash

def Path.front (p : Path) : Language Word :=
  mark p.absolute .slash * stepFront p.before

/-- A path with its last step. -/
def Path.texts (p : Path) : Language Word :=
  match p.before with
  | [] => 0
  | t :: before => mark p.absolute .slash * text .steps (t :: before).reverse

def StepHead.texts (h : StepHead) : Language Word :=
  mark h.isAttribute .atSign * text .name h.name

/-! ## Places -/

/-- The arguments before the present one, with a comma after them. -/
def argumentFront : List Expr → Language Word :=
  frontOf (fun e before => text .arguments (e :: before).reverse) id fun _ => .comma

/-- The beginning of a call. -/
def callFront (withDollar : Bool) (x : String) : Language Word :=
  mark withDollar .dollar * name x * symbol .leftParen

mutual

def ExprHole.front : ExprHole → Language Word
  | .root => 1
  | .group c outer => outer.front * c.front * symbol .leftParen
  | .argument withDollar x before c outer =>
    outer.front * c.front * (callFront withDollar x * argumentFront before)
  | .filter head path outer => outer.front * path.front * (head.texts * symbol .leftBracket)

/-- The words before a selector; a union has a member before its second one. -/
def SelectorHole.front : SelectorHole → Language Word
  | .operand c outer => outer.front * c.front
  | .member [] _ => 0
  | .member (s :: before) outer =>
    outer.front * (text .members (s :: before).reverse * symbol .pipe)
  | .scoped outer => outer.front * (symbol .dollar * symbol .leftParen)

end

/-- The words that are no number on its own that could be an index. -/
def loneFree : Language Word :=
  { ws | ∀ w, ws = [w] → w.isWhole = false }

/-- The words that may be all of the expression in a place: in brackets, a number on its own is an
index and no expression. -/
def ExprHole.bodies : ExprHole → Language Word
  | .filter .. => loneFree
  | .root | .group .. | .argument .. => ⊤

/-- The words of a place after which any operand may follow. -/
def ExprHole.starts : ExprHole → Language Word
  | .filter .. => { ws | ws ≠ [] }
  | .root | .group .. | .argument .. => ⊤

/-! ## States -/

/-- An index in brackets. -/
def indexText (i : Index) : Language Word :=
  symbol .leftBracket * indexNumber i * symbol .rightBracket

/-- A filter in brackets. -/
def filterText (f : Filter) : Language Word :=
  symbol .leftBracket * text .filter f * symbol .rightBracket

/-- An index in brackets that is taken for a filter. -/
def indexFilterText (f : Filter) : Language Word :=
  { ws | ∃ i : Index, f = .operator (.constant (.number (.ofInt i.toInt))) ∧ ws ∈ indexText i }

/-- The first of two brackets. -/
def firstBrackets (f : Filter) : Language Word :=
  filterText f + indexFilterText f

/-- The word of a number without a point. -/
def wholeNumber (t : Token) : Language Word :=
  { ws | ws = [t.word] ∧ t.isWhole = true }

/-- The words that lead to a state. -/
def State.front : State → Language Word
  | .expressionDue hole => hole.front * (1 ⊓ hole.starts)
  | .operandDue c hole => hole.front * (c.front ⊓ hole.starts)
  | .dollar c hole => hole.front * c.front * symbol .dollar
  | .dollarName x c hole => hole.front * c.front * (symbol .dollar * name x)
  | .leadingName x c hole => hole.front * c.front * name x
  | .callOpened withDollar x c hole => hole.front * c.front * callFront withDollar x
  | .operandDone e c hole => hole.front * (c.front * text (.phrase .primary) e ⊓ hole.bodies)
  | .scopedDue hole | .selectorDue hole => hole.front
  | .selectorDollar hole => hole.front * symbol .dollar
  | .selectorDone s hole => hole.front * text .selector s
  | .stepDue path hole => hole.front * path.front
  | .nodeNameDue path hole => hole.front * path.front * symbol .atSign
  | .firstName isAttribute x path hole =>
    hole.front * path.front * (mark isAttribute .atSign * name x)
  | .localNameDue isAttribute q path hole =>
    hole.front * path.front * (mark isAttribute .atSign * (name q * symbol .colon))
  | .stepName head path hole => hole.front * path.front * head.texts
  | .bracket head path hole => hole.front * path.front * (head.texts * symbol .leftBracket)
  | .bracketNumber t head path hole =>
    hole.front * path.front * (head.texts * symbol .leftBracket) * wholeNumber t
  | .indexed i head path hole => hole.front * path.front * (head.texts * indexText i)
  | .filtered f head path hole => hole.front * path.front * (head.texts * filterText f)
  | .secondBracket f head path hole =>
    hole.front * path.front * (head.texts * (firstBrackets f * symbol .leftBracket))
  | .secondIndex f i head path hole =>
    hole.front * path.front *
      (head.texts * (firstBrackets f * (symbol .leftBracket * indexNumber i)))
  | .stepDone path hole => hole.front * path.texts
  | .accepted parsed => text .expression parsed.root * (symbol .eof * ⊤)

/-! ## Rules as inclusions -/

section Rules

variable {k l m : Language Word} {ws : List Word} {w : Word}

theorem mul_le_iff : k * l ≤ m ↔ ∀ us ∈ k, ∀ vs ∈ l, us ++ vs ∈ m :=
  Set.image2_subset_iff

theorem word_mem_symbol (t : Token) : [t.word] ∈ symbol t.kind :=
  ⟨t.text, rfl⟩

theorem snoc_mem (h : ws ∈ k) (hw : [w] ∈ l) (hm : k * l ≤ m) : ws ++ [w] ∈ m :=
  hm (Language.append_mem_mul h hw)

theorem rule_le {a b : Category} {x : a.Tree} {y : b.Tree}
    (h : ∀ {ws n}, Derives a ws x n → ∃ o, Derives b ws y o) : text a x ≤ text b y :=
  fun _ ⟨_, hws⟩ => h hws

/-- Two texts with a word between them. -/
theorem join_le {a b c : Category} {x : a.Tree} {y : b.Tree} {z : c.Tree} {k : Kind}
    (h : ∀ {us vs m n p}, Derives a us x m → Derives b vs y n →
      ∃ o, Derives c (us ++ ⟨k, p⟩ :: vs) z o) :
    text a x * (symbol k * text b y) ≤ text c z := by
  simp only [mul_le_iff, Language.mem_mul]
  rintro us ⟨m, hus⟩ _ ⟨_, ⟨p, rfl⟩, vs, ⟨n, hvs⟩, rfl⟩
  exact h hus hvs

/-- A text after those before it. -/
theorem frontOf_mul_le {α β : Type} {texts : β → List α → Language Word} {value : α → β}
    {mark : α → Kind} {next : β → Language Word} (first : ∀ y, next y ≤ texts y [])
    (more : ∀ x before y,
      texts (value x) before * (symbol (mark x) * next y) ≤ texts y (x :: before))
    (before : List α) (y : β) : frontOf texts value mark before * next y ≤ texts y before := by
  cases before with
  | nil =>
    rw [frontOf, one_mul]
    exact first y
  | cons x before =>
    rw [frontOf, mul_assoc]
    exact more x before y

theorem disjunctFront_mul_le (es : List Expr) (e : Expr) :
    disjunctFront es * text (.phrase .and) e ≤ text .disjuncts (e :: es).reverse := by
  refine frontOf_mul_le (fun e => ?_) (fun f es e => ?_) es e
  · exact rule_le fun h => ⟨_, .firstDisjunct h⟩
  · rw [List.reverse_cons (a := e)]
    exact join_le fun h h' => ⟨_, .nextDisjunct h h'⟩

theorem conjunctFront_mul_le (es : List Expr) (e : Expr) :
    conjunctFront es * text (.phrase .comparison) e ≤ text .conjuncts (e :: es).reverse := by
  refine frontOf_mul_le (fun e => ?_) (fun f es e => ?_) es e
  · exact rule_le fun h => ⟨_, .firstConjunct h⟩
  · rw [List.reverse_cons (a := e)]
    exact join_le fun h h' => ⟨_, .nextConjunct h h'⟩

theorem termFront_mul_le (es : List (Expr × AdditiveOp)) (e : Expr) :
    termFront es * text (.phrase .multiplicative) e ≤ text .terms (Chain.unroll es e []) := by
  refine frontOf_mul_le (fun e => ?_) (fun f es e => ?_) es e
  · exact rule_le fun h => ⟨_, .firstTerm h⟩
  · rw [Chain.unroll_cons]
    exact join_le fun h h' => ⟨_, .nextTerm h h'⟩

theorem factorFront_mul_le (es : List (Expr × MultiplicativeOp)) (e : Expr) :
    factorFront es * text (.phrase .primary) e ≤ text .factors (Chain.unroll es e []) := by
  refine frontOf_mul_le (fun e => ?_) (fun f es e => ?_) es e
  · exact rule_le fun h => ⟨_, .firstFactor h⟩
  · rw [Chain.unroll_cons]
    exact join_le fun h h' => ⟨_, .nextFactor h h'⟩

theorem argumentFront_mul_le (es : List Expr) (e : Expr) :
    argumentFront es * text .expression e ≤ text .arguments (e :: es).reverse := by
  refine frontOf_mul_le (fun e => ?_) (fun f es e => ?_) es e
  · exact rule_le fun h => ⟨_, .firstArgument h⟩
  · rw [List.reverse_cons (a := e)]
    exact join_le fun h h' => ⟨_, .nextArgument h h'⟩

theorem stepFront_mul_le (ts : List Step) (t : Step) :
    stepFront ts * text .step t ≤ text .steps (t :: ts).reverse := by
  refine frontOf_mul_le (fun t => ?_) (fun u ts t => ?_) ts t
  · exact rule_le fun h => ⟨_, .firstStep h⟩
  · rw [List.reverse_cons (a := t)]
    exact join_le fun h h' => ⟨_, .nextStep h h'⟩

/-! ## Closed levels -/

theorem lift_le {ℓ k : Level} (h : ℓ.strength ≤ k.strength) (e : Expr) :
    text (.phrase k) e ≤ text (.phrase ℓ) e :=
  rule_le fun hws => ⟨_, .lift h hws⟩

variable (c : Chain) (e : Expr)

theorem factors_le : factorFront c.factors * text (.phrase .primary) e ≤
    text (.phrase .multiplicative) (c.product e).value := by
  have hfront := factorFront_mul_le c.factors e
  simp only [Chain.product]
  cases hfactors : c.factors with
  | nil =>
    rw [factorFront, frontOf, one_mul]
    exact lift_le (by decide) e
  | cons x before =>
    rw [hfactors] at hfront
    exact hfront.trans (rule_le fun h => ⟨_, .multiplicative h (by simp [Chain.unroll_cons])⟩)

theorem terms_le : termFront c.terms * text (.phrase .multiplicative) (c.product e).value ≤
    text (.phrase .additive) (c.sum e).value := by
  have hfront := termFront_mul_le c.terms (c.product e).value
  simp only [Chain.sum, Traced.value_bind]
  generalize (c.product e).value = e at *
  cases hterms : c.terms with
  | nil =>
    rw [termFront, frontOf, one_mul]
    exact lift_le (by decide) e
  | cons x before =>
    rw [hterms] at hfront
    exact hfront.trans (rule_le fun h => ⟨_, .additive h (by simp [Chain.unroll_cons])⟩)

theorem compared_le : comparedFront c.compared * text (.phrase .additive) (c.sum e).value ≤
    text (.phrase .comparison) (c.comparison e).value := by
  simp only [Chain.comparison, Traced.value_bind]
  generalize (c.sum e).value = e
  cases c.compared with
  | none =>
    rw [comparedFront, one_mul]
    exact lift_le (by decide) e
  | some x =>
    rw [comparedFront, mul_assoc]
    exact join_le fun h h' => ⟨_, .comparison h h'⟩

theorem conjuncts_le :
    conjunctFront c.conjuncts * text (.phrase .comparison) (c.comparison e).value ≤
      text (.phrase .and) (c.conjunction e).value := by
  have hfront := conjunctFront_mul_le c.conjuncts (c.comparison e).value
  simp only [Chain.conjunction, Traced.value_bind]
  generalize (c.comparison e).value = e at *
  cases hconjuncts : c.conjuncts with
  | nil =>
    rw [conjunctFront, frontOf, one_mul]
    exact lift_le (by decide) e
  | cons x before =>
    rw [hconjuncts] at hfront
    exact hfront.trans (rule_le fun h => ⟨_, .and h (by simp)⟩)

theorem disjuncts_le :
    disjunctFront c.disjuncts * text (.phrase .and) (c.conjunction e).value ≤
      text (.phrase .or) (c.disjunction e).value := by
  have hfront := disjunctFront_mul_le c.disjuncts (c.conjunction e).value
  simp only [Chain.disjunction, Traced.value_bind]
  generalize (c.conjunction e).value = e at *
  cases hdisjuncts : c.disjuncts with
  | nil =>
    rw [disjunctFront, frontOf, one_mul]
    exact lift_le (by decide) e
  | cons x before =>
    rw [hdisjuncts] at hfront
    exact hfront.trans (rule_le fun h => ⟨_, .or h (by simp)⟩)

/-- An operand that ends an expression. -/
theorem Chain.front_mul_le :
    c.front * text (.phrase .primary) e ≤ text .expression (c.disjunction e).value := by
  simp only [Chain.front, mul_assoc]
  grw [factors_le, terms_le, compared_le, conjuncts_le, disjuncts_le]
  exact rule_le fun h => ⟨_, .whole h⟩

theorem mul_mul_le (h : k * l ≤ m) (n : Language Word) : k * (l * n) ≤ m * n := by
  grw [← mul_assoc, h]

/-- An operator after an operand. -/
theorem Chain.push_front {c d : Chain} {e : Expr} {op : Operator} {k : Kind}
    (hpush : (c.push e op).value = some d) (hk : Operator.ofKind? k = some op) :
    c.front * (text (.phrase .primary) e * symbol k) ≤ d.front := by
  simp only [Chain.front, mul_assoc]
  cases op with
  | multiplicative op =>
    obtain rfl := Option.some.inj hpush
    obtain rfl := Operator.kind_of_ofKind? hk
    grw [mul_mul_le (factorFront_mul_le _ _)]
    rfl
  | additive op =>
    obtain rfl := Option.some.inj hpush
    obtain rfl := Operator.kind_of_ofKind? hk
    grw [mul_mul_le (factors_le _ _), mul_mul_le (termFront_mul_le _ _)]
    simp only [factorFront, frontOf, mul_one]
    rfl
  | relational op =>
    obtain rfl := Operator.kind_of_ofKind? hk
    simp only [push, Traced.value_bind] at hpush
    split at hpush
    · rename_i hcompared
      obtain rfl := Option.some.inj hpush
      grw [mul_mul_le (factors_le _ _), mul_mul_le (terms_le _ _)]
      simp only [hcompared, comparedFront, termFront, factorFront, frontOf, mul_one, one_mul]
      rfl
    · cases hpush
  | and =>
    obtain rfl := Option.some.inj hpush
    obtain rfl := Operator.kind_of_ofKind? hk
    grw [mul_mul_le (factors_le _ _), mul_mul_le (terms_le _ _), mul_mul_le (compared_le _ _),
      mul_mul_le (conjunctFront_mul_le _ _)]
    simp only [comparedFront, termFront, factorFront, frontOf, mul_one, Chain.empty]
    rfl
  | or =>
    obtain rfl := Option.some.inj hpush
    obtain rfl := Operator.kind_of_ofKind? hk
    grw [mul_mul_le (factors_le _ _), mul_mul_le (terms_le _ _), mul_mul_le (compared_le _ _),
      mul_mul_le (conjuncts_le _ _), mul_mul_le (disjunctFront_mul_le _ _)]
    simp only [comparedFront, termFront, factorFront, conjunctFront, frontOf, mul_one, Chain.empty]
    rfl

end Rules

end Parse

end MapExpr
