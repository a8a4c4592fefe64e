import MapExpr.Parse.State

/-!
# Reading

An expression is read token by token, without looking ahead and without going back. The functions
come in the order in which a token passes through them: it may end an expression
(`ExprHole.resume`), an operand (`afterOperand`), a selector (`SelectorHole.resume`) or a step
(`afterStep`), or begin one of these.

* `State.step`: what a token does;
* `read`: what a list of tokens does, and `read_append`: that it does so from left to right.

Nesting is checked at the first token inside the brackets, before that token is looked at.
-/

namespace MapExpr.Parse

open Outcome

/-! ## Ends -/

/-- The token `t` follows the expression `e`. -/
def ExprHole.resume (hole : ExprHole) (e : Expr) (t : Token) : Outcome :=
  match hole with
  | .root =>
    match t.kind with
    | .eof => go (.accepted ⟨e, ⟨0, t.span.stop⟩⟩)
    | _ => refuse .endOfInput t
  | .group chain outer =>
    match t.kind with
    | .rightParen => go (.operandDone (.group e) chain outer)
    | _ => refuse .closingParen t
  | .argument withDollar name before chain outer =>
    match t.kind with
    | .comma => go (.expressionDue (.argument withDollar name (e :: before) chain outer))
    | .rightParen =>
      go (.operandDone (.call (.mk withDollar name (e :: before).reverse)) chain outer)
    | _ => refuse .nextArgument t
  | .filter head path outer =>
    match t.kind with
    | .rightBracket => go (.filtered (.ofExpr e) head path outer)
    | _ => refuse .closingBracket t

/-- The token `t` follows the operand `e`. -/
def afterOperand (e : Expr) (chain : Chain) (hole : ExprHole) (t : Token) : Outcome := do
  match Operator.ofKind? t.kind with
  | some op =>
    match ← chain.push e op with
    | some chain => go (.operandDue chain hole)
    | none => refuse .oneComparison t
  | none => hole.resume (← chain.disjunction e) t

/-- The token `t` follows the selector `s`. -/
def SelectorHole.resume (hole : SelectorHole) (s : Selector) (t : Token) : Outcome :=
  match hole with
  | .operand chain outer =>
    if chain.isEmpty ∧ t.kind = .pipe then go (.selectorDue (.member [s] outer))
    else afterOperand (.selector s) chain outer t
  | .member before outer =>
    if t.kind = .pipe then go (.selectorDue (.member (s :: before) outer))
    else do
      let e ← .note (.union (before.length + 1)) (.union (s :: before).reverse)
      outer.resume e t
  | .scoped outer =>
    match t.kind with
    | .rightParen => go (.selectorDone (.scoped s) outer)
    | _ => refuse .closingParen t

/-- The token `t` follows the last step of `path`. -/
def afterStep (path : Path) (hole : SelectorHole) (t : Token) : Outcome :=
  match t.kind with
  | .slash => go (.stepDue path hole)
  | _ => hole.resume path.toSelector t

/-- The token `t` follows the name of a step. -/
def afterStepName (head : StepHead) (path : Path) (hole : SelectorHole) (t : Token) : Outcome :=
  match t.kind with
  | .leftBracket => go (.bracket head path hole)
  | _ => afterStep (path.push (head.toStep .absent)) hole t

/-- The token `t` follows the first name of a step. -/
def afterFirstName (isAttribute : Bool) (name : String) (path : Path) (hole : SelectorHole)
    (t : Token) : Outcome :=
  match t.kind with
  | .colon => go (.localNameDue isAttribute name path hole)
  | _ => afterStepName ⟨isAttribute, .plain name⟩ path hole t

/-! ## Beginnings -/

/-- The token `t` stands where a step is due. -/
def beginStep (path : Path) (hole : SelectorHole) (t : Token) : Outcome :=
  match t.kind with
  | .dotDot => go (.stepDone (path.push .parent) hole)
  | .dot => go (.stepDone (path.push .current) hole)
  | .atSign => go (.nodeNameDue path hole)
  | .identifier => go (.firstName false t.text path hole)
  | .star => go (.stepName ⟨false, ⟨none, .wildcard⟩⟩ path hole)
  | _ => refuse .step t

/-- The token `t` stands where a selector is due. -/
def beginSelector (hole : SelectorHole) (t : Token) : Outcome :=
  match t.kind with
  | .dollar => go (.selectorDollar hole)
  | .slash => go (.stepDue ⟨true, []⟩ hole)
  | _ => beginStep ⟨false, []⟩ hole t

/-- The contents of a literal's text. -/
def unquoted (text : String) : String :=
  .ofList (text.toList.drop 1).dropLast

/-- The constant that a token is. -/
def constant? (t : Token) : Option Constant :=
  match t.kind with
  | .number => (Decimal.ofText? t.text).map fun d => .number (.ofDecimal d)
  | .systemWord => some .system
  | .literal => some (.literal (unquoted t.text))
  | _ => none

/-- The token `t` is a constant. -/
def beginConstant (chain : Chain) (hole : ExprHole) (t : Token) : Outcome :=
  match constant? t with
  | some c => go (.operandDone (.constant c) chain hole)
  | none => refuse .number t

/-- The token `t` stands where an operand is due. -/
def beginOperand (chain : Chain) (hole : ExprHole) (t : Token) : Outcome :=
  match t.kind with
  | .number | .systemWord | .literal => beginConstant chain hole t
  | .dollar => go (.dollar chain hole)
  | .identifier => go (.leadingName t.text chain hole)
  | .leftParen => go (.expressionDue (.group chain hole))
  | k => if k.startsSelector then beginSelector (.operand chain hole) t else refuse .expression t

/-- The token `t` begins an expression in brackets. -/
def beginExpression (limit : Nat) (hole : ExprHole) (t : Token) : Outcome :=
  within limit hole.depth t (beginOperand .empty hole t)

/-! ## Steps -/

/-- What the token `t` does, when nothing may be nested more deeply than `limit`. -/
def State.step (limit : Nat) (s : State) (t : Token) : Outcome :=
  match s with
  | .expressionDue hole => beginExpression limit hole t
  | .operandDue chain hole => beginOperand chain hole t
  | .dollar chain hole =>
    match t.kind with
    | .identifier => go (.dollarName t.text chain hole)
    | .leftParen => go (.scopedDue (.scoped (.operand chain hole)))
    | _ => refuse .variableName t
  | .dollarName name chain hole =>
    match t.kind with
    | .leftParen => go (.callOpened true name chain hole)
    | _ => afterOperand (.variableRef name) chain hole t
  | .leadingName name chain hole =>
    match t.kind with
    | .leftParen => go (.callOpened false name chain hole)
    | _ => afterFirstName false name ⟨false, []⟩ (.operand chain hole) t
  | .callOpened withDollar name chain hole =>
    match t.kind with
    | .rightParen => go (.operandDone (.call (.mk withDollar name [])) chain hole)
    | _ => beginExpression limit (.argument withDollar name [] chain hole) t
  | .operandDone e chain hole => afterOperand e chain hole t
  | .scopedDue hole => within limit hole.depth t (beginSelector hole t)
  | .selectorDue hole => beginSelector hole t
  | .selectorDollar hole =>
    match t.kind with
    | .leftParen => go (.scopedDue (.scoped hole))
    | _ => refuse .openingParen t
  | .selectorDone s hole => hole.resume s t
  | .stepDue path hole => beginStep path hole t
  | .nodeNameDue path hole =>
    match t.kind with
    | .identifier => go (.firstName true t.text path hole)
    | .star => go (.stepName ⟨true, ⟨none, .wildcard⟩⟩ path hole)
    | _ => refuse .nodeName t
  | .firstName isAttribute name path hole => afterFirstName isAttribute name path hole t
  | .localNameDue isAttribute qualifier path hole =>
    match t.kind with
    | .identifier => go (.stepName ⟨isAttribute, ⟨some qualifier, .name t.text⟩⟩ path hole)
    | .star => go (.stepName ⟨isAttribute, ⟨some qualifier, .wildcard⟩⟩ path hole)
    | _ => refuse .nodeName t
  | .stepName head path hole => afterStepName head path hole t
  | .bracket head path hole =>
    match t.kind with
    | .rightBracket => go (.filtered .empty head path hole)
    | _ =>
      if t.isWhole then go (.bracketNumber t head path hole)
      else beginExpression limit (.filter head path hole) t
  | .bracketNumber number head path hole =>
    match t.kind with
    | .rightBracket =>
      match Decimal.Integer.ofText? number.text with
      | some i => go (.indexed i head path hole)
      | none => refuse .integerIndex number
    | _ =>
      let inner := ExprHole.filter head path hole
      within limit inner.depth number
        (match constant? number with
        | some c => afterOperand (.constant c) .empty inner t
        | none => refuse .number number)
  | .indexed i head path hole =>
    match t.kind with
    | .leftBracket =>
      let f := .operator (.constant (.number (.ofInt i.toInt)))
      go (.secondBracket f head path hole)
    | _ => afterStep (path.push (head.toStep (.index i))) hole t
  | .filtered f head path hole =>
    match t.kind with
    | .leftBracket => go (.secondBracket f head path hole)
    | _ => afterStep (path.push (head.toStep (.filter f))) hole t
  | .secondBracket f head path hole =>
    match t.kind with
    | .number =>
      match Decimal.Integer.ofText? t.text with
      | some i => go (.secondIndex f i head path hole)
      | none => refuse .integerIndex t
    | _ => refuse .numericIndex t
  | .secondIndex f i head path hole =>
    match t.kind with
    | .rightBracket => go (.stepDone (path.push (head.toStep (.filterThenIndex f i))) hole)
    | _ => refuse .closingBracket t
  | .stepDone path hole => afterStep path hole t
  | .accepted parsed => go (.accepted parsed)

/-- What the tokens do, one after the other, up to the first fault. -/
def read (limit : Nat) : State → List Token → Outcome
  | s, [] => go s
  | s, t :: ts =>
    let here := s.step limit t
    match here.value with
    | .ok s =>
      let later := read limit s ts
      ⟨later.value, here.events ++ later.events⟩
    | .error e => ⟨.error e, here.events⟩

/-- A list is read in parts as it is read in one. -/
theorem read_append (limit : Nat) (s : State) (ts us : List Token) :
    (read limit s (ts ++ us)).value =
      (read limit s ts).value.bind fun s => (read limit s us).value := by
  induction ts generalizing s with
  | nil => rfl
  | cons t ts ih =>
    simp only [List.cons_append, read]
    split
    · exact ih _
    · rfl

end MapExpr.Parse
