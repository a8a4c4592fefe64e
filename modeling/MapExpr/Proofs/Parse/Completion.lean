import MapExpr.Proofs.Parse.Reached
import MapExpr.Proofs.Token.Spelled

/-!
# Completions

Wherever a reader stands, some words complete the text. What is due is filled in with the least text
of its kind, and then every bracket around it is closed.

* `Word.IsLexeme`: a word that is scanned as it stands;
* `State.Completes`, `State.Closes`: some words complete the text, and some that join nothing;
* `ExprHole.closes`, `SelectorHole.closes`: after an operand or a selector, by the place around it;
* `State.Reached.completes`: every state that is reached.
-/

namespace MapExpr

/-- A word whose text is one lexeme of its kind. -/
def Word.IsLexeme (w : Word) : Prop :=
  Token.lexeme? w.text.toList = some ⟨⟨w.text.toList, []⟩, w.kind⟩

namespace Parse

/-- Some words and the end marker complete the text. -/
def State.Completes (s : State) : Prop :=
  ∃ ws : List Word, (∀ w ∈ ws, w.IsLexeme) ∧ ∀ stop, s.Accepts (ws.map Word.token ++ [.eof stop])

/-- Some words that only end what is before them complete the text. -/
def State.Closes (s : State) : Prop :=
  ∃ ws : List Word, (∀ w ∈ ws, w.IsLexeme ∧ w.kind.joins = 0) ∧
    ∀ stop, s.Accepts (ws.map Word.token ++ [.eof stop])

variable {limit : Nat} {ts : List Token} {s s' : State} {w : Word} {e : Expr} {chain : Chain}
  {hole : ExprHole} {place : SelectorHole} {path : Path} {head : StepHead}

namespace State

theorem Closes.completes (h : s.Closes) : s.Completes := by
  obtain ⟨ws, hws, haccepts⟩ := h
  exact ⟨ws, fun w hw => (hws w hw).1, haccepts⟩

theorem Completes.cons (hw : w.IsLexeme) (hreact : (s.react w.token).value = .ok s')
    (h : s'.Completes) : s.Completes := by
  obtain ⟨ws, hws, haccepts⟩ := h
  exact ⟨w :: ws, List.forall_mem_cons.2 ⟨hw, hws⟩,
    fun stop => accepts_cons_iff.2 ⟨s', hreact, haccepts stop⟩⟩

theorem Closes.cons (hw : w.IsLexeme) (hjoins : w.kind.joins = 0)
    (hreact : (s.react w.token).value = .ok s') (h : s'.Closes) : s.Closes := by
  obtain ⟨ws, hws, haccepts⟩ := h
  exact ⟨w :: ws, List.forall_mem_cons.2 ⟨⟨hw, hjoins⟩, hws⟩,
    fun stop => accepts_cons_iff.2 ⟨s', hreact, haccepts stop⟩⟩

/-- States that take every closing token alike close with the same words. -/
theorem Closes.of_agree (h : s'.Closes) (hagree : ∀ limit, Agree limit 1 s s') : s.Closes := by
  obtain ⟨ws, hws, haccepts⟩ := h
  refine ⟨ws, hws, fun stop => ?_⟩
  obtain ⟨limit, parsed, hrun⟩ := haccepts stop
  refine ⟨limit, parsed, Eq.trans ?_ hrun⟩
  cases ws with
  | nil => exact (hagree limit).run_cons Nat.one_pos
  | cons w ws => exact (hagree limit).run_cons (Nat.lt_one_iff.2 (hws w List.mem_cons_self).2)

end State

/-! ## Agreement -/

theorem agree_stepDone :
    Agree limit 1 (.stepDone path place) (.selectorDone path.toSelector place) := by
  intro t ht
  have hslash : t.kind ≠ .slash := Kind.ne_of_joins_lt ht (by decide)
  simp only [State.step, afterStep]

theorem agree_stepName : Agree limit 1 (.stepName head path place)
    (.stepDone (path.push (head.toStep .absent)) place) := by
  intro t ht
  have hbracket : t.kind ≠ .leftBracket := Kind.ne_of_joins_lt ht (by decide)
  simp only [State.step, afterStepName]

theorem agree_firstName {isAttribute : Bool} {x : String} :
    Agree limit 1 (.firstName isAttribute x path place)
      (.stepName ⟨isAttribute, .plain x⟩ path place) := by
  intro t ht
  have hcolon : t.kind ≠ .colon := Kind.ne_of_joins_lt ht (by decide)
  simp only [State.step, afterFirstName]

theorem agree_leadingName {x : String} :
    Agree limit 1 (.leadingName x chain hole)
      (.firstName false x ⟨false, []⟩ (.operand chain hole)) := by
  intro t ht
  have hparen : t.kind ≠ .leftParen := Kind.ne_of_joins_lt ht (by decide)
  simp only [State.step]

theorem agree_dollarName {x : String} :
    Agree limit 1 (.dollarName x chain hole) (.operandDone (.variableRef x) chain hole) := by
  intro t ht
  have hparen : t.kind ≠ .leftParen := Kind.ne_of_joins_lt ht (by decide)
  simp only [State.step]

theorem agree_indexed {i : Index} : Agree limit 1 (.indexed i head path place)
    (.stepDone (path.push (head.toStep (.index i))) place) := by
  intro t ht
  have hbracket : t.kind ≠ .leftBracket := Kind.ne_of_joins_lt ht (by decide)
  simp only [State.step]

theorem agree_filtered {f : Filter} : Agree limit 1 (.filtered f head path place)
    (.stepDone (path.push (head.toStep (.filter f))) place) := by
  intro t ht
  have hbracket : t.kind ≠ .leftBracket := Kind.ne_of_joins_lt ht (by decide)
  simp only [State.step]

theorem agree_selected {s : Selector} : Agree limit 1 (.selectorDone s (.operand chain hole))
    (.operandDone (.selector s) chain hole) := by
  intro t ht
  have hpipe : t.kind ≠ .pipe := Kind.ne_of_joins_lt ht (by decide)
  simp only [State.step, SelectorHole.resume, hpipe, and_false, ↓reduceIte]

theorem agree_member {s : Selector} {before : List Selector} :
    Agree limit 1 (.selectorDone s (.member before hole))
      (.operandDone (.union (s :: before).reverse) .empty hole) := by
  intro t ht
  have hpipe : t.kind ≠ .pipe := Kind.ne_of_joins_lt ht (by decide)
  simp only [State.step, SelectorHole.resume, hpipe, ↓reduceIte, afterOperand,
    Operator.ofKind?_eq_none ht, (Chain.clear_empty .or).disjunction_eq, Traced.value_bind,
    Traced.value_note, Traced.value_pure]

/-! ## Closing -/

/-- The word of a parenthesis, bracket or other mark is a lexeme. -/
theorem isLexeme_symbol {k : Kind} (hk : k.isPlain = true) : (Word.symbol k).IsLexeme := by
  have hlexeme := Token.lexeme?_plain hk []
  rwa [List.append_nil] at hlexeme

mutual

/-- After an operand, the brackets around it are closed. -/
theorem ExprHole.closes : ∀ (hole : ExprHole) (e : Expr) (chain : Chain),
    (State.operandDone e chain hole).Closes
  | .root, _, _ => ⟨[], nofun, fun _ => ⟨0, _, rfl⟩⟩
  | .group before outer, _, _ =>
    .cons (w := .symbol .rightParen) (isLexeme_symbol rfl) rfl rfl (outer.closes _ before)
  | .argument _ _ _ before outer, _, _ =>
    .cons (w := .symbol .rightParen) (isLexeme_symbol rfl) rfl rfl (outer.closes _ before)
  | .filter head path outer, _, _ =>
    have hfiltered : ∀ f, (State.filtered f head path outer).Closes := fun _ =>
      ((outer.closes _).of_agree fun _ => agree_stepDone).of_agree fun _ => agree_filtered
    .cons (w := .symbol .rightBracket) (isLexeme_symbol rfl) rfl rfl (hfiltered _)

/-- After a selector, the brackets around it are closed. -/
theorem SelectorHole.closes : ∀ (place : SelectorHole) (s : Selector),
    (State.selectorDone s place).Closes
  | .operand chain outer, _ => (outer.closes _ chain).of_agree fun _ => agree_selected
  | .member _ outer, _ => (outer.closes _ .empty).of_agree fun _ => agree_member
  | .scoped outer, _ =>
    .cons (w := .symbol .rightParen) (isLexeme_symbol rfl) rfl rfl (outer.closes _)

end

theorem closes_stepDone (path : Path) (place : SelectorHole) :
    (State.stepDone path place).Closes :=
  (place.closes _).of_agree fun _ => agree_stepDone

theorem closes_stepName (head : StepHead) (path : Path) (place : SelectorHole) :
    (State.stepName head path place).Closes :=
  (closes_stepDone _ place).of_agree fun _ => agree_stepName

theorem closes_firstName (isAttribute : Bool) (x : String) (path : Path) (place : SelectorHole) :
    (State.firstName isAttribute x path place).Closes :=
  (closes_stepName _ path place).of_agree fun _ => agree_firstName

theorem closes_filtered (f : Filter) (head : StepHead) (path : Path) (place : SelectorHole) :
    (State.filtered f head path place).Closes :=
  (closes_stepDone _ place).of_agree fun _ => agree_filtered

/-! ## Filling in -/

theorem isLexeme_system : (Word.symbol .systemWord).IsLexeme := by
  have hlexeme := Token.lexeme?_system Token.delimited_nil
  rwa [List.append_nil] at hlexeme

theorem isLexeme_dot : (Word.symbol .dot).IsLexeme :=
  Token.lexeme?_dot Token.delimited_nil

theorem completes_operandDue (chain : Chain) (hole : ExprHole) :
    (State.operandDue chain hole).Completes :=
  .cons (w := .symbol .systemWord) isLexeme_system rfl (hole.closes _ chain).completes

theorem completes_expressionDue (hole : ExprHole) : (State.expressionDue hole).Completes := by
  refine .cons (w := .symbol .systemWord) isLexeme_system ?_
    (hole.closes (.constant .system) .empty).completes
  simp only [State.react, State.entry, State.step, beginExpression, Outcome.within_self]
  rfl

theorem completes_selectorDue (place : SelectorHole) : (State.selectorDue place).Completes :=
  .cons (w := .symbol .dot) isLexeme_dot rfl (closes_stepDone _ place).completes

theorem completes_scopedDue (place : SelectorHole) : (State.scopedDue place).Completes := by
  refine .cons (w := .symbol .dot) isLexeme_dot ?_
    (closes_stepDone ⟨false, [.current]⟩ place).completes
  simp only [State.react, State.entry, State.step, Outcome.within_self]
  rfl

theorem completes_secondIndex (f : Filter) (i : Index) (head : StepHead) (path : Path)
    (place : SelectorHole) : (State.secondIndex f i head path place).Completes :=
  .cons (w := .symbol .rightBracket) (isLexeme_symbol rfl) rfl (closes_stepDone _ place).completes

/-- A number that is kept may be the first of two summands. -/
theorem completes_bracketNumber {number : Token} (h : (constant? number).isSome = true) :
    (State.bracketNumber number head path place).Completes := by
  obtain ⟨c, hc⟩ := Option.isSome_iff_exists.1 h
  have hplus : (Word.symbol .plus).IsLexeme := by rfl
  refine .cons hplus ?_
    (completes_operandDue ⟨[], [], none, [(.constant c, .plus)], []⟩ (.filter head path place))
  rw [bracketNumber_react (by decide) hc]
  rfl

/-- Every state that is reached can be completed. -/
theorem State.Reached.completes (h : s.Reached ts) (hts : ∀ t ∈ ts, t.word.IsGenuine) :
    s.Completes := by
  cases s with
  | expressionDue hole => exact completes_expressionDue hole
  | operandDue chain hole => exact completes_operandDue chain hole
  | dollar chain hole =>
    have hname : Word.IsLexeme ⟨.identifier, "x"⟩ := by rfl
    exact .cons hname rfl ((hole.closes _ chain).of_agree fun _ => agree_dollarName).completes
  | dollarName name chain hole =>
    exact ((hole.closes _ chain).of_agree fun _ => agree_dollarName).completes
  | leadingName name chain hole =>
    exact ((closes_firstName false name _ _).of_agree fun _ => agree_leadingName).completes
  | callOpened withDollar name chain hole =>
    exact .cons (w := .symbol .rightParen) (isLexeme_symbol rfl) rfl (hole.closes _ chain).completes
  | operandDone e chain hole => exact (hole.closes e chain).completes
  | scopedDue place => exact completes_scopedDue place
  | selectorDue place => exact completes_selectorDue place
  | selectorDollar place =>
    exact .cons (w := .symbol .leftParen) (isLexeme_symbol rfl) rfl (completes_scopedDue _)
  | selectorDone s place => exact (place.closes s).completes
  | stepDue path place =>
    exact .cons (w := .symbol .dot) isLexeme_dot rfl (closes_stepDone _ place).completes
  | nodeNameDue path place =>
    exact .cons (w := .symbol .star) (isLexeme_symbol rfl) rfl (closes_stepName _ _ place).completes
  | firstName isAttribute name path place => exact (closes_firstName _ _ path place).completes
  | localNameDue isAttribute qualifier path place =>
    exact .cons (w := .symbol .star) (isLexeme_symbol rfl) rfl (closes_stepName _ _ place).completes
  | stepName head path place => exact (closes_stepName head path place).completes
  | bracket head path place =>
    exact .cons (w := .symbol .rightBracket) (isLexeme_symbol rfl) rfl
      (closes_filtered _ head path place).completes
  | bracketNumber number head path place =>
    exact completes_bracketNumber (h.isSome_constant? hts rfl)
  | indexed i head path place =>
    exact ((closes_stepDone _ place).of_agree fun _ => agree_indexed).completes
  | filtered f head path place => exact (closes_filtered f head path place).completes
  | secondBracket f head path place =>
    have hindex : Word.IsLexeme ⟨.number, "1"⟩ := by rfl
    exact .cons hindex rfl (completes_secondIndex f 1 head path place)
  | secondIndex f i head path place => exact completes_secondIndex f i head path place
  | stepDone path place => exact (closes_stepDone path place).completes
  | accepted parsed => cases h.parsed

end Parse

end MapExpr
