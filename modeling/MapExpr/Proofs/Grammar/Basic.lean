import MapExpr.Expr.Print
import MapExpr.Parse.Read
import MapExpr.Proofs.Number.Numeral

/-!
# The grammar

Which words a map expression is made of, whatever the order in which a reader takes them, with the
tree that they make and the nesting that they need. A word is a token without its place.

* `Level`: the levels of the operators, from `or` to the primaries;
* `Category`, `Category.Tree`: the syntactic categories and what a text of each stands for;
* `Derives c ws t n`: the words `ws` are a text of the category `c` that stands for `t`, and their
  brackets nest `n` deep. The last argument is worked out by the rules and restricts none of them.

A list of operands, arguments, members or steps grows at its end. A chain of one operand is that
operand (`Derives.lift`), and so is nothing else.
-/

namespace MapExpr

/-- A token without its place. -/
structure Word where
  kind : Kind
  text : String
deriving DecidableEq, Repr

def Token.word (t : Token) : Word :=
  ⟨t.kind, t.text⟩

namespace Word

/-- A number without a point. -/
def isWhole (w : Word) : Bool :=
  w.kind == .number && !w.text.contains '.'

/-- The token of a word at the beginning of a text. -/
def token (w : Word) : Token :=
  ⟨w.kind, w.text, 0⟩

/-- The word `w`, if it is there. -/
def optional (present : Bool) (w : Word) : List Word :=
  if present then [w] else []

@[simp] theorem optional_true (w : Word) : optional true w = [w] := rfl

@[simp] theorem optional_false (w : Word) : optional false w = [] := rfl

end Word

@[simp] theorem Token.kind_word (t : Token) : t.word.kind = t.kind := rfl

@[simp] theorem Token.text_word (t : Token) : t.word.text = t.text := rfl

@[simp] theorem Word.word_token (w : Word) : w.token.word = w := rfl

@[simp] theorem Token.isWhole_word (t : Token) : t.word.isWhole = t.isWhole := rfl

namespace Word

@[simp] theorem map_word_token (ws : List Word) : (ws.map token).map Token.word = ws := by
  rw [List.map_map]
  exact List.map_id ws

theorem kind_of_isWhole {w : Word} (h : w.isWhole = true) : w.kind = .number := by
  simpa using (Bool.and_eq_true_iff.1 h).1

/-- An index has no point. -/
theorem isWhole_of_ofText? {x : String} {i : Index} (h : Decimal.Integer.ofText? x = some i) :
    isWhole ⟨.number, x⟩ = true := by
  simp [isWhole, Decimal.Integer.contains_point h]

end Word

namespace Grammar

open Parse (unquoted filterCost)
open Word (optional)

/-- The levels of operators, the last of which has none. -/
inductive Level
  | or | and | comparison | additive | multiplicative | primary
deriving DecidableEq, Repr

/-- How tightly the operators of a level bind. -/
def Level.strength : Level → Nat
  | or => 1
  | and => 2
  | comparison => 3
  | additive => 4
  | multiplicative => 5
  | primary => 6

@[simp] theorem Level.strength_or : or.strength = 1 := rfl

@[simp] theorem Level.strength_and : and.strength = 2 := rfl

@[simp] theorem Level.strength_comparison : comparison.strength = 3 := rfl

@[simp] theorem Level.strength_additive : additive.strength = 4 := rfl

@[simp] theorem Level.strength_multiplicative : multiplicative.strength = 5 := rfl

@[simp] theorem Level.strength_primary : primary.strength = 6 := rfl

inductive Category
  /-- A whole expression. -/
  | expression
  /-- An operand that is bound by operators of a level, or more tightly. -/
  | phrase (ℓ : Level)
  /-- One or more operands with `or` between them. -/
  | disjuncts
  /-- One or more operands with `and` between them. -/
  | conjuncts
  | terms
  | factors
  | arguments
  | selector
  /-- One or more selectors with `|` between them. -/
  | members
  | steps
  | step
  | name
  | predicate
  /-- What stands in the first brackets of a step, unless it is an index. -/
  | filter

/-- What a text of a category stands for. -/
abbrev Category.Tree : Category → Type
  | expression | phrase _ => Expr
  | disjuncts | conjuncts | arguments => List Expr
  | terms => Expr × List (AdditiveOp × Expr)
  | factors => Expr × List (MultiplicativeOp × Expr)
  | selector => Selector
  | members => List Selector
  | steps => List Step
  | step => Step
  | name => QName
  | predicate => Predicate
  | filter => Filter

inductive Derives : (c : Category) → List Word → c.Tree → Nat → Prop
  | whole {ws e n} : Derives (.phrase .or) ws e n → Derives .expression ws e n
  | union {ws ss n} : Derives .members ws ss n → 2 ≤ ss.length →
      Derives .expression ws (.union ss) n
  -- chains of operators
  | lift {ℓ k ws e n} : ℓ.strength ≤ k.strength → Derives (.phrase k) ws e n →
      Derives (.phrase ℓ) ws e n
  | or {ws es n} : Derives .disjuncts ws es n → 2 ≤ es.length →
      Derives (.phrase .or) ws (.or es) n
  | and {ws es n} : Derives .conjuncts ws es n → 2 ≤ es.length →
      Derives (.phrase .and) ws (.and es) n
  | comparison {ws us e f m n p} {op : RelationalOp} : Derives (.phrase .additive) ws e m →
      Derives (.phrase .additive) us f n →
      Derives (.phrase .comparison) (ws ++ ⟨op.kind, p⟩ :: us) (.comparison op e f) (max m n)
  | additive {ws e es n} : Derives .terms ws (e, es) n → es ≠ [] →
      Derives (.phrase .additive) ws (.additive e es) n
  | multiplicative {ws e es n} : Derives .factors ws (e, es) n → es ≠ [] →
      Derives (.phrase .multiplicative) ws (.multiplicative e es) n
  | firstDisjunct {ws e n} : Derives (.phrase .and) ws e n → Derives .disjuncts ws [e] n
  | nextDisjunct {ws us es e m n p} : Derives .disjuncts ws es m → Derives (.phrase .and) us e n →
      Derives .disjuncts (ws ++ ⟨.orWord, p⟩ :: us) (es ++ [e]) (max m n)
  | firstConjunct {ws e n} : Derives (.phrase .comparison) ws e n → Derives .conjuncts ws [e] n
  | nextConjunct {ws us es e m n p} : Derives .conjuncts ws es m →
      Derives (.phrase .comparison) us e n →
      Derives .conjuncts (ws ++ ⟨.andWord, p⟩ :: us) (es ++ [e]) (max m n)
  | firstTerm {ws e n} : Derives (.phrase .multiplicative) ws e n → Derives .terms ws (e, []) n
  | nextTerm {ws us e es f m n p} {op : AdditiveOp} : Derives .terms ws (e, es) m →
      Derives (.phrase .multiplicative) us f n →
      Derives .terms (ws ++ ⟨op.kind, p⟩ :: us) (e, es ++ [(op, f)]) (max m n)
  | firstFactor {ws e n} : Derives (.phrase .primary) ws e n → Derives .factors ws (e, []) n
  | nextFactor {ws us e es f m n p} {op : MultiplicativeOp} : Derives .factors ws (e, es) m →
      Derives (.phrase .primary) us f n →
      Derives .factors (ws ++ ⟨op.kind, p⟩ :: us) (e, es ++ [(op, f)]) (max m n)
  -- primaries
  | number {x d} : Decimal.ofText? x = some d →
      Derives (.phrase .primary) [⟨.number, x⟩] (.constant (.number (.ofDecimal d))) 0
  | system {p} : Derives (.phrase .primary) [⟨.systemWord, p⟩] (.constant .system) 0
  | literal {x} :
      Derives (.phrase .primary) [⟨.literal, x⟩] (.constant (.literal (unquoted x))) 0
  | variableRef {p x} :
      Derives (.phrase .primary) [⟨.dollar, p⟩, ⟨.identifier, x⟩] (.variableRef x) 0
  | callEmpty {withDollar p x q r} :
      Derives (.phrase .primary)
        (optional withDollar ⟨.dollar, p⟩ ++
          [⟨.identifier, x⟩, ⟨.leftParen, q⟩, ⟨.rightParen, r⟩])
        (.call (.mk withDollar x [])) 0
  | call {withDollar p x q ws r es n} : Derives .arguments ws es n →
      Derives (.phrase .primary)
        (optional withDollar ⟨.dollar, p⟩ ++
          ⟨.identifier, x⟩ :: ⟨.leftParen, q⟩ :: (ws ++ [⟨.rightParen, r⟩]))
        (.call (.mk withDollar x es)) n
  | group {p ws q e n} : Derives .expression ws e n →
      Derives (.phrase .primary) (⟨.leftParen, p⟩ :: (ws ++ [⟨.rightParen, q⟩])) (.group e) (n + 1)
  | selected {ws s n} : Derives .selector ws s n → Derives (.phrase .primary) ws (.selector s) n
  | firstArgument {ws e n} : Derives .expression ws e n → Derives .arguments ws [e] (n + 1)
  | nextArgument {ws us es e m n p} : Derives .arguments ws es m → Derives .expression us e n →
      Derives .arguments (ws ++ ⟨.comma, p⟩ :: us) (es ++ [e]) (max m (n + 1))
  -- selectors
  | scopedSelector {p q ws r s n} : Derives .selector ws s n →
      Derives .selector (⟨.dollar, p⟩ :: ⟨.leftParen, q⟩ :: (ws ++ [⟨.rightParen, r⟩]))
        (.scoped s) (n + 1)
  | path {absolute p ws ts n} : Derives .steps ws ts n →
      Derives .selector (optional absolute ⟨.slash, p⟩ ++ ws) (.steps absolute ts) n
  | firstMember {ws s n} : Derives .selector ws s n → Derives .members ws [s] n
  | nextMember {ws us ss s m n p} : Derives .members ws ss m → Derives .selector us s n →
      Derives .members (ws ++ ⟨.pipe, p⟩ :: us) (ss ++ [s]) (max m n)
  | firstStep {ws t n} : Derives .step ws t n → Derives .steps ws [t] n
  | nextStep {ws us ts t m n p} : Derives .steps ws ts m → Derives .step us t n →
      Derives .steps (ws ++ ⟨.slash, p⟩ :: us) (ts ++ [t]) (max m n)
  | current {p} : Derives .step [⟨.dot, p⟩] .current 0
  | parent {p} : Derives .step [⟨.dotDot, p⟩] .parent 0
  | named {isAttribute p ws us x y m n} : Derives .name ws x m → Derives .predicate us y n →
      Derives .step (optional isAttribute ⟨.atSign, p⟩ ++ ws ++ us) (.named isAttribute x y)
        (max m n)
  | plainName {x} : Derives .name [⟨.identifier, x⟩] ⟨none, .name x⟩ 0
  | plainWildcard {p} : Derives .name [⟨.star, p⟩] ⟨none, .wildcard⟩ 0
  | qualifiedName {u p x} :
      Derives .name [⟨.identifier, u⟩, ⟨.colon, p⟩, ⟨.identifier, x⟩] ⟨some u, .name x⟩ 0
  | qualifiedWildcard {u p q} :
      Derives .name [⟨.identifier, u⟩, ⟨.colon, p⟩, ⟨.star, q⟩] ⟨some u, .wildcard⟩ 0
  -- predicates
  | absent : Derives .predicate [] .absent 0
  | index {p x q i} : Decimal.Integer.ofText? x = some i →
      Derives .predicate [⟨.leftBracket, p⟩, ⟨.number, x⟩, ⟨.rightBracket, q⟩] (.index i) 0
  | filtered {p ws q f n} : Derives .filter ws f n →
      Derives .predicate (⟨.leftBracket, p⟩ :: (ws ++ [⟨.rightBracket, q⟩])) (.filter f) n
  | filteredIndex {p ws q r x u f i n} : Derives .filter ws f n →
      Decimal.Integer.ofText? x = some i →
      Derives .predicate
        (⟨.leftBracket, p⟩ ::
          (ws ++ [⟨.rightBracket, q⟩, ⟨.leftBracket, r⟩, ⟨.number, x⟩, ⟨.rightBracket, u⟩]))
        (.filterThenIndex f i) n
  -- a number in the first of two brackets is a filter that costs no nesting
  | doubleIndex {p x q r y u i j} : Decimal.Integer.ofText? x = some i →
      Decimal.Integer.ofText? y = some j →
      Derives .predicate
        [⟨.leftBracket, p⟩, ⟨.number, x⟩, ⟨.rightBracket, q⟩, ⟨.leftBracket, r⟩, ⟨.number, y⟩,
          ⟨.rightBracket, u⟩]
        (.filterThenIndex (.operator (.constant (.number (.ofInt i.toInt)))) j) 0
  | noFilter : Derives .filter [] .empty 0
  | someFilter {ws e n} : Derives .expression ws e n → (∀ w, ws = [w] → w.isWhole = false) →
      Derives .filter ws (.ofExpr e) (n + filterCost)

namespace Derives

variable {ws us : List Word} {m n : Nat}

/-- A primary is an expression. -/
theorem of_primary {e : Expr} (h : Derives (.phrase .primary) ws e n) :
    Derives .expression ws e n :=
  .whole (.lift (k := .primary) (by decide) h)

/-- A child step is a selector, and so an expression. -/
theorem of_child {x : QName} {p : Predicate} (hx : Derives .name ws x m)
    (hp : Derives .predicate us p n) :
    Derives .expression (ws ++ us) (.selector (.steps false [.named false x p])) (max m n) :=
  have hstep : Derives .step (ws ++ us) (.named false x p) (max m n) :=
    @named false "" _ _ _ _ _ _ hx hp
  of_primary (.selected (@path false "" _ _ _ (.firstStep hstep)))

end Derives

end Grammar

end MapExpr
