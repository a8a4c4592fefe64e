import MapExpr.Parse.Read
import MapExpr.Proofs.Descent.Basic
import MapExpr.Proofs.Token.Slice
import MapExpr.Settings

/-!
# The rules of a descent

The grammar of map expressions, rule by rule. Only expressions and selectors in brackets lead back
to rules that have not ended; a rule is given these two as its `Inner`, and `Input.inner` ties the
knot, one level of the recursion after the other.

* `Input.constant` to `Input.main`: the rules;
* `Request`: a rule with what it is given, to be called on its own;
* `Descent.ofTokens`: the descent over the tokens of a text.
-/

namespace MapExpr

open Parse (Expectation Operator)

/-! ## What a token may be in a chain -/

namespace Kind

/-- Tells tokens of the kind `k` from others. -/
def isExactly (k : Kind) : Kind → Option Unit :=
  fun j => if j = k then some () else none

def relationalOp? (k : Kind) : Option RelationalOp :=
  match Operator.ofKind? k with
  | some (.relational op) => some op
  | _ => none

def additiveOp? (k : Kind) : Option AdditiveOp :=
  match Operator.ofKind? k with
  | some (.additive op) => some op
  | _ => none

def multiplicativeOp? (k : Kind) : Option MultiplicativeOp :=
  match Operator.ofKind? k with
  | some (.multiplicative op) => some op
  | _ => none

end Kind

/-- One operand is itself, and several are a node. -/
def Expr.collapse (node : List Expr → Expr) : List Expr → Expr
  | [e] => e
  | es => node es

namespace Descent

/-- What a rule needs to go on in brackets, and the rounds that its loops may take. -/
structure Inner where
  rounds : Nat
  expression : Descent Expr
  selector : Descent Selector

namespace Input

variable (inp : Input) (i : Inner)

/-! ## Names, indices and constants -/

/-- A constant: a number, the context, or what stands between two quotes. -/
def constant : Descent Constant :=
  activate .constant do
    let t ← inp.advance
    match t.kind with
    | .number =>
      match Decimal.ofText? t.text with
      | some d => pure (.number (.ofDecimal d))
      | none => stop (.fallback .number)
    | .systemWord => pure .system
    | .literal =>
      match Span.slice? t.text ⟨1, t.text.utf8ByteSize - 1⟩ with
      | some contents => pure (.literal contents)
      | none => stop .badCut
    | _ => stop (.fallback .constant)

/-- A name with a colon after it, or nothing. -/
def qualifier : Descent (Option String) := do
  let first ← inp.peek
  let second ← inp.peekNth 1
  if first.kind = .identifier ∧ second.kind = .colon then
    let t ← inp.advance
    let _ ← inp.advance
    pure (some t.text)
  else pure none

/-- The name of a node, perhaps after a qualifier. -/
def nodeName : Descent QName :=
  activate .nodeName do
    let qualifier ← inp.qualifier
    let t ← inp.peek
    match t.kind with
    | .identifier =>
      let _ ← inp.advance
      pure ⟨qualifier, .name t.text⟩
    | .star =>
      let _ ← inp.advance
      pure ⟨qualifier, .wildcard⟩
    | _ => inp.unexpected Expectation.nodeName.text

/-- A number without a point in brackets. -/
def index : Descent Index :=
  activate .index do
    let _ ← inp.expect .leftBracket "'['"
    let t ← inp.expect .number Expectation.numericIndex.text
    match Decimal.Integer.ofText? t.text with
    | some j =>
      let _ ← inp.expect .rightBracket Expectation.closingBracket.text
      pure j
    | none => stop (.fault (Expectation.integerIndex.butFound t))

/-- The next tokens are a number without a point in brackets. -/
def indexAhead : Descent Bool := do
  let first ← inp.peek
  let second ← inp.peekNth 1
  let third ← inp.peekNth 2
  pure (first.kind == .leftBracket && second.isWhole && third.kind == .rightBracket)

theorem bind_indexAhead {β : Type} (f : Bool → Descent β) (c : Cursor) :
    (inp.indexAhead >>= f) c =
      f ((inp.tokenAt c.pos).kind == .leftBracket && (inp.tokenAt (c.pos + 1)).isWhole &&
        (inp.tokenAt (c.pos + 2)).kind == .rightBracket) c := rfl

/-! ## Selectors -/

/-- The brackets of a filter, with an expression in them or nothing. -/
def filter : Descent Filter :=
  activate .filter do
    let _ ← inp.expect .leftBracket "'['"
    match ← inp.eat .rightBracket with
    | some _ => pure .empty
    | none =>
      let e ← inp.nestedBy Parse.filterCost i.expression
      let _ ← inp.expect .rightBracket Expectation.closingBracket.text
      pure (.ofExpr e)

/-- What stands in brackets after a name. Two indices in a row are a filter over the first one. -/
def predicate : Descent Predicate :=
  activate .predicate do
    if (← inp.peek).kind = .leftBracket then
      if ← inp.indexAhead then
        let j ← inp.index
        if (← inp.peek).kind = .leftBracket then
          let k ← inp.index
          pure (.filterThenIndex (.operator (.constant (.number (.ofInt j.toInt)))) k)
        else pure (.index j)
      else
        let f ← inp.filter i
        if (← inp.peek).kind = .leftBracket then
          let k ← inp.index
          pure (.filterThenIndex f k)
        else pure (.filter f)
    else pure .absent

def step : Descent Step :=
  activate .step do
    match (← inp.peek).kind with
    | .dotDot =>
      let _ ← inp.advance
      pure .parent
    | .dot =>
      let _ ← inp.advance
      pure .current
    | .atSign | .identifier | .star =>
      let mark ← inp.eat .atSign
      let name ← inp.nodeName
      let p ← inp.predicate i
      pure (.named mark.isSome name p)
    | _ => inp.unexpected Expectation.step.text

/-- A step after the steps `ss` and a slash. -/
def furtherStep (ss : List Step) (_ : Unit) : Descent (List Step) := do
  let s ← inp.step i
  pure (ss ++ [s])

/-- Steps with slashes between them, or a selector in parentheses after a dollar. -/
def selector : Descent Selector :=
  activate .selector do
    match ← inp.eat .dollar with
    | some _ =>
      let _ ← inp.expect .leftParen Expectation.openingParen.text
      let s ← inp.nestedBy 1 i.selector
      let _ ← inp.expect .rightParen Expectation.closingParen.text
      pure (.scoped s)
    | none =>
      let slash ← inp.eat .slash
      let first ← inp.step i
      let ss ← inp.whileAhead .steps (Kind.isExactly .slash) (inp.furtherStep i) i.rounds [first]
      pure (.steps slash.isSome ss)

/-! ## Primaries -/

/-- The arguments of a call after those already read, up to the one that no comma follows. -/
def arguments : Nat → List Expr → Descent (List Expr)
  | 0, _ => stop .exhausted
  | n + 1, es => do
    let next ← activate (.round .arguments) do
      let e ← inp.nestedBy 1 i.expression
      let comma ← inp.eat .comma
      pure (es ++ [e], comma.isSome)
    if next.2 then arguments n next.1 else pure next.1

/-- All that stands in the parentheses of a call. -/
def argumentList : Descent (List Expr) := do
  if (← inp.peek).kind = .rightParen then pure []
  else inp.arguments i i.rounds []

/-- A name with arguments in parentheses, perhaps after a dollar. -/
def functionCall : Descent MapExpr.Call :=
  activate .functionCall do
    let dollar ← inp.eat .dollar
    let name ← inp.expect .identifier "a function name"
    let _ ← inp.expect .leftParen Expectation.openingParen.text
    let es ← inp.argumentList i
    let _ ← inp.expect .rightParen Expectation.nextArgument.text
    pure (.mk dollar.isSome name.text es)

/-- An operand. A name is a call if a parenthesis follows, and a selector otherwise. -/
def primary : Descent Expr :=
  activate .primary do
    match (← inp.peek).kind with
    | .number | .systemWord | .literal =>
      let k ← inp.constant
      pure (.constant k)
    | .dollar =>
      let second ← inp.peekNth 1
      match second.kind with
      | .identifier =>
        if (← inp.peekNth 2).kind = .leftParen then
          let f ← inp.functionCall i
          pure (.call f)
        else
          let _ ← inp.advance
          let name ← inp.advance
          pure (.variableRef name.text)
      | .leftParen =>
        let s ← inp.selector i
        pure (.selector s)
      | _ => stop (.fault (Expectation.variableName.butFound second))
    | .identifier =>
      if (← inp.peekNth 1).kind = .leftParen then
        let f ← inp.functionCall i
        pure (.call f)
      else
        let s ← inp.selector i
        pure (.selector s)
    | .leftParen =>
      let _ ← inp.advance
      let e ← inp.nestedBy 1 i.expression
      let _ ← inp.expect .rightParen Expectation.closingParen.text
      pure (.group e)
    | k =>
      if k.startsSelector then
        let s ← inp.selector i
        pure (.selector s)
      else inp.unexpected Expectation.expression.text

/-! ## Operators -/

/-- A factor after the operators and factors `rest` and the operator `op`. -/
def furtherFactor (rest : List (MultiplicativeOp × Expr)) (op : MultiplicativeOp) :
    Descent (List (MultiplicativeOp × Expr)) := do
  let e ← inp.primary i
  pure (rest ++ [(op, e)])

/-- The product that begins with the operand `first`. -/
def product (first : Expr) : Descent Expr :=
  activate .product do
    let rest ← inp.whileAhead .factors Kind.multiplicativeOp? (inp.furtherFactor i) i.rounds []
    pure (if rest = [] then first else .multiplicative first rest)

/-- A term after the operators and terms `rest` and the operator `op`. -/
def furtherTerm (rest : List (AdditiveOp × Expr)) (op : AdditiveOp) :
    Descent (List (AdditiveOp × Expr)) := do
  let e ← inp.primary i
  let e ← inp.product i e
  pure (rest ++ [(op, e)])

/-- The sum that begins with the operand `first`. -/
def sum (first : Expr) : Descent Expr :=
  activate .sum do
    let first ← inp.product i first
    let rest ← inp.whileAhead .terms Kind.additiveOp? (inp.furtherTerm i) i.rounds []
    pure (if rest = [] then first else .additive first rest)

/-- The comparison that begins with the operand `first`. No second one may follow. -/
def comparison (first : Expr) : Descent Expr :=
  activate .comparison do
    let left ← inp.sum i first
    match Kind.relationalOp? (← inp.peek).kind with
    | none => pure left
    | some op =>
      let _ ← inp.advance
      let e ← inp.primary i
      let right ← inp.sum i e
      if (← inp.peek).kind.isRelational then inp.unexpected Expectation.oneComparison.text
      else pure (.comparison op left right)

/-- An operand after those of a conjunction. -/
def furtherConjunct (es : List Expr) (_ : Unit) : Descent (List Expr) := do
  let e ← inp.primary i
  let e ← inp.comparison i e
  pure (es ++ [e])

/-- The conjunction that begins with the operand `first`. -/
def conjunction (first : Expr) : Descent Expr :=
  activate .conjunction do
    let first ← inp.comparison i first
    let es ←
      inp.whileAhead .conjuncts (Kind.isExactly .andWord) (inp.furtherConjunct i) i.rounds [first]
    pure (Expr.collapse .and es)

/-- An operand after those of a disjunction. -/
def furtherDisjunct (es : List Expr) (_ : Unit) : Descent (List Expr) := do
  let e ← inp.primary i
  let e ← inp.conjunction i e
  pure (es ++ [e])

/-- The disjunction that begins with the operand `first`. -/
def disjunction (first : Expr) : Descent Expr :=
  activate .disjunction do
    let first ← inp.conjunction i first
    let es ←
      inp.whileAhead .disjuncts (Kind.isExactly .orWord) (inp.furtherDisjunct i) i.rounds [first]
    pure (Expr.collapse .or es)

/-! ## Whole expressions -/

/-- A selector after the members `ss` of a union. -/
def furtherMember (ss : List Selector) (_ : Unit) : Descent (List Selector) := do
  let s ← inp.selector i
  pure (ss ++ [s])

/-- The union that begins with the selector `first`. -/
def union (first : Selector) : Descent Expr :=
  activate .union do
    let ss ← inp.whileAhead .members (Kind.isExactly .pipe) (inp.furtherMember i) i.rounds [first]
    pure (.union ss)

/-- An expression. Only a selector that comes first may begin a union. -/
def expression : Descent Expr :=
  activate .expression do
    match ← inp.primary i with
    | .selector s =>
      if (← inp.peek).kind = .pipe then inp.union i s else inp.disjunction i (.selector s)
    | e => inp.disjunction i e

/-- An expression and nothing after it. -/
def main : Descent Parsed :=
  activate .main do
    let root ← inp.nestedBy 1 (inp.expression i)
    let marker ← inp.expect .eof Expectation.endOfInput.text
    pure ⟨root, ⟨0, marker.span.stop⟩⟩

/-- Expressions and selectors in brackets, up to `n` levels of them. -/
def inner : Nat → Inner
  | 0 => ⟨0, stop .exhausted, stop .exhausted⟩
  | n + 1 => ⟨n + 1, inp.expression (inner n), inp.selector (inner n)⟩

end Input

/-! ## Calls of single rules -/

/-- A rule with what it is given. -/
inductive Request
  | main
  | expression
  | union (first : Selector)
  | disjunction (first : Expr)
  | conjunction (first : Expr)
  | comparison (first : Expr)
  | sum (first : Expr)
  | product (first : Expr)
  | primary
  | constant
  | functionCall
  | selector
  | step
  | nodeName
  | predicate
  | index
  | filter

namespace Request

def rule : Request → Rule
  | main => .main
  | expression => .expression
  | union _ => .union
  | disjunction _ => .disjunction
  | conjunction _ => .conjunction
  | comparison _ => .comparison
  | sum _ => .sum
  | product _ => .product
  | primary => .primary
  | constant => .constant
  | functionCall => .functionCall
  | selector => .selector
  | step => .step
  | nodeName => .nodeName
  | predicate => .predicate
  | index => .index
  | filter => .filter

/-- Calls the rule, and forgets its value. -/
def perform (inp : Input) (i : Inner) : Request → Descent Unit
  | main => do let _ ← inp.main i
  | expression => do let _ ← inp.expression i
  | union first => do let _ ← inp.union i first
  | disjunction first => do let _ ← inp.disjunction i first
  | conjunction first => do let _ ← inp.conjunction i first
  | comparison first => do let _ ← inp.comparison i first
  | sum first => do let _ ← inp.sum i first
  | product first => do let _ ← inp.product i first
  | primary => do let _ ← inp.primary i
  | constant => do let _ ← inp.constant
  | functionCall => do let _ ← inp.functionCall i
  | selector => do let _ ← inp.selector i
  | step => do let _ ← inp.step i
  | nodeName => do let _ ← inp.nodeName
  | predicate => do let _ ← inp.predicate i
  | index => do let _ ← inp.index
  | filter => do let _ ← inp.filter i

end Request

/-! ## Whole texts -/

/-- Reads tokens by descent, the last of which is the marker. -/
def ofTokens (settings : Settings) (tokens : List Token) : Run Parsed :=
  match tokens.getLast? with
  | none => ⟨.error (.fallback .noMarker), ⟨0, 0⟩, []⟩
  | some marker =>
    let inp : Input := ⟨tokens, marker, settings.maxDepth⟩
    inp.main (inp.inner tokens.length) ⟨0, 0⟩

end Descent

end MapExpr
