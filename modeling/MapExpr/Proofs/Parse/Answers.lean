import MapExpr.Proofs.Parse.Brackets
import MapExpr.Proofs.Parse.Limit

/-!
# What a token does

Every token is refused, or it leads to a state that follows it. The functions that a token passes
through have one lemma each, in the order in which it does, and `State.answers` puts them together.

* `State.costs`: the costs of the brackets around a state, of which an undecided one has the cost
  that the coming tokens give it;
* `State.Follows`: what is known of the state after a token, with the account of its brackets;
* `Outcome.Answers`: a refusal at the token, or a state that follows it;
* `State.answers`: the answer of every state, but for a number that is no index.
-/

namespace MapExpr.Parse

open Outcome
open Token (parenCost bracketCost nextIs indexIsNext)

/-! ## Costs of places -/

mutual

/-- The costs of the brackets around a place, the innermost first. -/
def ExprHole.costs : ExprHole → List Nat
  | .root => []
  | .group _ outer => 1 :: outer.costs
  | .argument _ _ _ _ outer => 1 :: outer.costs
  | .filter _ _ outer => filterCost :: outer.costs

def SelectorHole.costs : SelectorHole → List Nat
  | .operand _ outer => outer.costs
  | .member _ outer => outer.costs
  | .scoped outer => 1 :: outer.costs

end

mutual

theorem ExprHole.depth_eq : ∀ hole : ExprHole, hole.depth = 1 + hole.costs.sum
  | .root => rfl
  | .group _ outer | .argument _ _ _ _ outer | .filter _ _ outer => by
    rw [ExprHole.depth, ExprHole.costs, outer.depth_eq, List.sum_cons]
    omega

theorem SelectorHole.depth_eq : ∀ hole : SelectorHole, hole.depth = 1 + hole.costs.sum
  | .operand _ outer | .member _ outer => outer.depth_eq
  | .scoped outer => by
    rw [SelectorHole.depth, SelectorHole.costs, outer.depth_eq, List.sum_cons]
    omega

end

/-- The costs of the brackets around a state in front of the tokens `rest`. -/
def State.costs : State → List Token → List Nat
  | .expressionDue hole, _ | .operandDue _ hole, _ | .dollar _ hole, _ | .dollarName _ _ hole, _
  | .leadingName _ _ hole, _ | .operandDone _ _ hole, _ => hole.costs
  | .callOpened _ _ _ hole, rest => (if nextIs .rightParen rest then 0 else 1) :: hole.costs
  | .scopedDue hole, _ | .selectorDue hole, _ | .selectorDollar hole, _ | .selectorDone _ hole, _
  | .stepDue _ hole, _ | .nodeNameDue _ hole, _ | .firstName _ _ _ hole, _
  | .localNameDue _ _ _ hole, _ | .stepName _ _ hole, _ | .indexed _ _ _ hole, _
  | .filtered _ _ _ hole, _ | .stepDone _ hole, _ => hole.costs
  | .bracket _ _ hole, rest => bracketCost rest :: hole.costs
  | .bracketNumber _ _ _ hole, rest =>
    (if nextIs .rightBracket rest then 0 else filterCost) :: hole.costs
  | .secondBracket _ _ _ hole, _ | .secondIndex _ _ _ _ hole, _ => 0 :: hole.costs
  | .accepted _, _ => []

/-! ## Answers -/

namespace State

/-- A name has just been read that an opening parenthesis makes a call. -/
def IsNamed : State → Prop
  | .dollarName .. | .leadingName .. => True
  | _ => False

/-- The number that is kept until the next token tells what it is. -/
def kept? : State → Option Token
  | .bracketNumber number _ _ _ => some number
  | _ => none

/-- A bracket has just been opened. -/
def IsOpened : State → Prop
  | .expressionDue _ | .callOpened .. | .scopedDue _ | .bracket .. | .secondBracket .. => True
  | _ => False

/-- Under some limit, the tokens `ts` complete the text. -/
def Accepts (s : State) (ts : List Token) : Prop :=
  ∃ limit parsed, s.run limit ts = .ok (.accepted parsed)

/-- The state `s'` comes after the token `t`, which comes after the token `before`; the costs of the
open brackets in front of `t` and the tokens after it are `costs`. -/
structure Follows (before : Option Token) (t : Token) (costs : List Token → List Nat)
    (s' : State) : Prop where
  ends : s'.parsed?.isSome = true ↔ t.kind = .eof
  keeps : ∀ {number}, s'.kept? = some number → number = t ∧ t.isWhole = true
  named : s'.IsNamed → t.kind = .identifier
  opened : t.isOpening = true → s'.IsOpened
  accounts : ∀ {rest}, s'.Accepts rest → s'.costs rest = t.account before rest (costs rest)

end State

/-- The token `t` is refused, or a state follows it. -/
def Outcome.Answers (before : Option Token) (t : Token) (costs : List Token → List Nat)
    (o : Outcome) : Prop :=
  (∃ x : Expectation, o.value = .error (x.butFound t)) ∨
    ∃ s', o.value = .ok s' ∧ s'.Follows before t costs

variable {limit : Nat} {before : Option Token} {t : Token} {rest : List Token}
  {costs : List Token → List Nat} {s s' : State} {e : Expr} {chain : Chain} {hole : ExprHole}
  {place : SelectorHole} {path : Path} {head : StepHead}

theorem State.accepts_cons_iff :
    s.Accepts (t :: rest) ↔ ∃ s', (s.react t).value = .ok s' ∧ s'.Accepts rest := by
  constructor
  · rintro ⟨limit, parsed, hrun⟩
    obtain ⟨s', hstep, hrest⟩ := run_cons_eq_ok_iff.1 hrun
    exact ⟨s', (step_eq_ok_iff.1 hstep).2, limit, parsed, hrest⟩
  · rintro ⟨s', hreact, limit, parsed, hrest⟩
    have hstep : (s.step (max (s.entry t).depth limit) t).value = .ok s' :=
      step_eq_ok_iff.2 ⟨Nat.le_max_left _ _, hreact⟩
    exact ⟨_, parsed, run_cons_eq_ok_iff.2 ⟨s', hstep, run_mono hrest (Nat.le_max_right _ _)⟩⟩

namespace Outcome

theorem answers_refuse (x : Expectation) : (refuse x t).Answers before t costs :=
  .inl ⟨x, rfl⟩

theorem answers_go (h : s'.Follows before t costs) : (go s').Answers before t costs :=
  .inr ⟨s', rfl, h⟩

end Outcome

/-- A token that is no bracket leaves the account as it is. -/
theorem State.Follows.of_neutral (hkind : t.kind.isNeutral = true)
    (hnamed : s'.IsNamed → t.kind = .identifier)
    (hkeeps : s'.kept? = none) (hparsed : s'.parsed? = none)
    (hcosts : ∀ rest, s'.costs rest = costs rest) : s'.Follows before t costs where
  ends := by
    rw [hparsed]
    exact iff_of_false nofun fun h => by simp [h, Kind.isNeutral] at hkind
  keeps h := by simp [hkeeps] at h
  named := hnamed
  opened h := by simp [Token.isOpening_eq_false hkind] at h
  accounts {rest} _ := by rw [hcosts, Token.account_eq_self hkind]

/-- A bracket that closes takes its cost off the account. -/
theorem State.Follows.of_closing (hkind : t.kind = .rightParen ∨ t.kind = .rightBracket)
    (hnamed : ¬ s'.IsNamed) (hkeeps : s'.kept? = none) (hparsed : s'.parsed? = none)
    (hcosts : ∀ rest, s'.costs rest = (costs rest).tail) : s'.Follows before t costs where
  ends := by
    rw [hparsed]
    exact iff_of_false nofun fun h => by simp [h] at hkind
  keeps h := by simp [hkeeps] at h
  named h := absurd h hnamed
  opened h := by rcases hkind with hkind | hkind <;> simp [Token.isOpening, hkind] at h
  accounts {rest} _ := by
    rw [hcosts, Token.account]
    rcases hkind with hkind | hkind <;> simp only [hkind]

/-- An opening bracket adds its cost to the account. -/
theorem State.Follows.of_opening (hkind : t.isOpening = true) (hopened : s'.IsOpened)
    (hcosts : ∀ {rest}, s'.Accepts rest → s'.costs rest = t.account before rest (costs rest)) :
    s'.Follows before t costs where
  ends := by
    refine iff_of_false (fun h => ?_) fun h => by simp [Token.isOpening, h] at hkind
    cases s' <;> first | exact hopened.elim | cases h
  keeps h := by
    cases s' <;> first | exact hopened.elim | cases h
  named h := by cases s' <;> first | exact h.elim | exact hopened.elim
  opened _ := hopened
  accounts := hcosts

/-! ## Ends -/

theorem ExprHole.resume_answers :
    (hole.resume e t).Answers before t fun _ => hole.costs := by
  cases hole with
  | root =>
    simp only [resume]
    split
    · rename_i hkind
      refine answers_go ⟨iff_of_true rfl hkind, fun h => ?_, False.elim, ?_, fun _ => ?_⟩
      · cases h
      · simp [Token.isOpening, hkind]
      · simp [Token.account, hkind, State.costs, costs]
    · exact answers_refuse _
  | group chain outer =>
    simp only [resume]
    split
    · rename_i hkind
      exact answers_go (.of_closing (.inl hkind) not_false rfl rfl fun _ => rfl)
    · exact answers_refuse _
  | argument withDollar name before chain outer =>
    simp only [resume]
    split
    · rename_i hkind
      exact answers_go (.of_neutral (hkind ▸ rfl) False.elim rfl rfl fun _ => rfl)
    · rename_i hkind
      exact answers_go (.of_closing (.inl hkind) not_false rfl rfl fun _ => rfl)
    · exact answers_refuse _
  | filter head path outer =>
    simp only [resume]
    split
    · rename_i hkind
      exact answers_go (.of_closing (.inr hkind) not_false rfl rfl fun _ => rfl)
    · exact answers_refuse _

theorem Operator.isNeutral_of_ofKind? {k : Kind} {op : Operator} (h : ofKind? k = some op) :
    k.isNeutral = true := by
  cases k <;> first | rfl | cases h

theorem afterOperand_answers :
    (afterOperand e chain hole t).Answers before t fun _ => hole.costs := by
  simp only [Answers, afterOperand]
  split
  · rename_i op hop
    rw [Traced.value_bind]
    cases (chain.push e op).value with
    | none => exact answers_refuse _
    | some chain =>
      have hneutral := Operator.isNeutral_of_ofKind? hop
      exact answers_go (.of_neutral hneutral False.elim rfl rfl fun _ => rfl)
  · rw [Traced.value_bind]
    exact ExprHole.resume_answers

theorem SelectorHole.resume_answers {s : Selector} :
    (place.resume s t).Answers before t fun _ => place.costs := by
  cases place with
  | operand chain outer =>
    simp only [resume]
    split
    · rename_i hpipe
      exact answers_go (.of_neutral (hpipe.2 ▸ rfl) False.elim rfl rfl fun _ => rfl)
    · exact afterOperand_answers
  | member before outer =>
    simp only [resume]
    split
    · rename_i hkind
      exact answers_go (.of_neutral (hkind ▸ rfl) False.elim rfl rfl fun _ => rfl)
    · simp only [Answers, Traced.value_bind, Traced.value_note]
      exact ExprHole.resume_answers
  | _ =>
    simp only [resume]
    split
    · rename_i hkind
      exact answers_go (.of_closing (.inl hkind) not_false rfl rfl fun _ => rfl)
    · exact answers_refuse _

theorem afterStep_answers : (afterStep path place t).Answers before t fun _ => place.costs := by
  simp only [afterStep]
  split
  · rename_i hkind
    exact answers_go (.of_neutral (hkind ▸ rfl) False.elim rfl rfl fun _ => rfl)
  · exact SelectorHole.resume_answers

theorem afterStepName_answers :
    (afterStepName head path place t).Answers before t fun _ => place.costs := by
  simp only [afterStepName]
  split
  · rename_i hkind
    refine answers_go (.of_opening (by simp [Token.isOpening, hkind]) trivial fun _ => ?_)
    simp only [State.costs, Token.account, hkind]
  · exact afterStep_answers

theorem afterFirstName_answers {isAttribute : Bool} {name : String} :
    (afterFirstName isAttribute name path place t).Answers before t fun _ => place.costs := by
  simp only [afterFirstName]
  split
  · rename_i hkind
    exact answers_go (.of_neutral (hkind ▸ rfl) False.elim rfl rfl fun _ => rfl)
  · exact afterStepName_answers

/-! ## Beginnings -/

theorem beginStep_answers : (beginStep path place t).Answers before t fun _ => place.costs := by
  simp only [beginStep]
  split
  case h_6 => exact answers_refuse _
  all_goals
    rename_i hkind
    exact answers_go (.of_neutral (hkind ▸ rfl) False.elim rfl rfl fun _ => rfl)

theorem beginSelector_answers : (beginSelector place t).Answers before t fun _ => place.costs := by
  simp only [beginSelector]
  split
  case h_3 => exact beginStep_answers
  all_goals
    rename_i hkind
    exact answers_go (.of_neutral (hkind ▸ rfl) False.elim rfl rfl fun _ => rfl)

theorem isNeutral_of_constant? {c : Constant} (h : constant? t = some c) :
    t.kind.isNeutral = true := by
  unfold constant? at h
  split at h <;> rename_i hkind
  · exact hkind ▸ rfl
  · exact hkind ▸ rfl
  · exact hkind ▸ rfl
  · cases h

theorem beginConstant_answers :
    (beginConstant chain hole t).Answers before t fun _ => hole.costs := by
  simp only [beginConstant]
  split
  · rename_i c hc
    exact answers_go (.of_neutral (isNeutral_of_constant? hc) False.elim rfl rfl fun _ => rfl)
  · exact answers_refuse _

/-- What a state refuses is not next where it accepts. -/
theorem State.Accepts.nextIs_eq_false {k : Kind} (h : s.Accepts rest)
    (hrefuse : ∀ {t s'}, t.kind = k → (s.react t).value ≠ .ok s') : nextIs k rest = false := by
  cases rest with
  | nil => rfl
  | cons t rest =>
    obtain ⟨s', hreact, -⟩ := accepts_cons_iff.1 h
    rw [← Bool.not_eq_true]
    exact fun hkind => hrefuse (by simpa [nextIs] using hkind) hreact

/-- An expression does not begin with a closing parenthesis. -/
theorem State.Accepts.nextIs_rightParen (h : (State.expressionDue hole).Accepts rest) :
    nextIs .rightParen rest = false :=
  h.nextIs_eq_false fun hkind => by
    simp [react, entry, step, beginExpression, beginOperand, hkind, Kind.startsSelector, refuse]

theorem beginOperand_answers :
    (beginOperand chain hole t).Answers before t fun _ => hole.costs := by
  simp only [beginOperand]
  split
  case h_6 hkind =>
    refine answers_go (.of_opening (by simp [Token.isOpening, hkind]) trivial fun h => ?_)
    simp [State.costs, ExprHole.costs, Token.account, hkind, parenCost, h.nextIs_rightParen]
  case h_7 =>
    split
    · exact beginSelector_answers
    · exact answers_refuse _
  case h_4 hkind => exact answers_go (.of_neutral (hkind ▸ rfl) False.elim rfl rfl fun _ => rfl)
  case h_5 hkind =>
    exact answers_go (.of_neutral (hkind ▸ rfl) (fun _ => hkind) rfl rfl fun _ => rfl)
  all_goals exact beginConstant_answers

/-! ## States -/

theorem Outcome.Answers.congr {o : Outcome} {costs' : List Token → List Nat}
    (h : o.Answers before t costs) (hcosts : ∀ rest, costs rest = costs' rest) :
    o.Answers before t costs' := by
  rwa [← funext hcosts]

/-- The second brackets of a step hold an index. -/
theorem State.Accepts.bracketCost_eq_zero {f : Filter}
    (h : (State.secondBracket f head path place).Accepts rest) : bracketCost rest = 0 := by
  cases rest with
  | nil =>
    obtain ⟨limit, parsed, hrun⟩ := h
    cases hrun
  | cons t rest =>
    obtain ⟨s₁, hnumber, haccepts⟩ := accepts_cons_iff.1 h
    simp only [react, step] at hnumber
    split at hnumber
    · rename_i hkind
      split at hnumber
      · rename_i i hi
        obtain rfl := Except.ok.inj hnumber
        cases rest with
        | nil =>
          obtain ⟨limit, parsed, hrun⟩ := haccepts
          cases hrun
        | cons u rest =>
          obtain ⟨s₂, hclose, -⟩ := accepts_cons_iff.1 haccepts
          simp only [react, step] at hclose
          split at hclose
          · rename_i hu
            have hwhole : t.isWhole = true := by
              rw [← Token.isWhole_word, Token.word, hkind]
              exact Word.isWhole_of_ofText? hi
            simp [bracketCost, indexIsNext, hwhole, hu]
          · cases hclose
      · cases hnumber
    · cases hnumber

theorem callOpened_answers {withDollar : Bool} {name : String} :
    ((State.callOpened withDollar name chain hole).react t).Answers before t fun rest =>
      (State.callOpened withDollar name chain hole).costs (t :: rest) := by
  by_cases hclose : t.kind = .rightParen
  · simp only [State.react, State.step, hclose]
    exact answers_go (.of_closing (.inl hclose) not_false rfl rfl fun _ => rfl)
  · have hreact : (State.callOpened withDollar name chain hole).react t =
        beginOperand .empty (.argument withDollar name [] chain hole) t := by
      simp [State.react, State.entry, State.step, hclose, beginExpression]
    rw [hreact]
    refine beginOperand_answers.congr fun rest => ?_
    simp [State.costs, ExprHole.costs, nextIs, hclose]

theorem bracket_answers : ((State.bracket head path place).react t).Answers before t fun rest =>
    (State.bracket head path place).costs (t :: rest) := by
  by_cases hclose : t.kind = .rightBracket
  · simp only [State.react, State.step, hclose]
    exact answers_go (.of_closing (.inr hclose) not_false rfl rfl fun _ => rfl)
  · have hnext : ∀ rest, nextIs .rightBracket (t :: rest) = false := by simp [nextIs, hclose]
    by_cases hwhole : t.isWhole = true
    · -- the cost is decided by the next token
      have hkind : t.kind = .number := Word.kind_of_isWhole (w := t.word) hwhole
      have hreact : (State.bracket head path place).react t =
          go (.bracketNumber t head path place) := by
        simp only [State.react, State.step, hwhole, ↓reduceIte]
      rw [hreact]
      refine answers_go ⟨?_, fun h => ?_, False.elim, fun h => ?_, fun {rest} _ => ?_⟩
      · exact iff_of_false Bool.false_ne_true (by simp [hkind])
      · exact ⟨(Option.some.inj h).symm, hwhole⟩
      · simp [Token.isOpening, hkind] at h
      · rw [Token.account_eq_self (hkind ▸ rfl)]
        cases rest <;> simp [State.costs, bracketCost, indexIsNext, nextIs, hclose, hwhole]
    · have hreact : (State.bracket head path place).react t =
          beginOperand .empty (.filter head path place) t := by
        simp [State.react, State.entry, State.step, hclose, hwhole, beginExpression]
      rw [hreact]
      refine beginOperand_answers.congr fun rest => ?_
      cases rest <;>
        simp [State.costs, ExprHole.costs, bracketCost, indexIsNext, nextIs, hclose, hwhole]

/-- A number that is kept is an operand if no bracket closes after it. -/
theorem bracketNumber_react {number : Token} {c : Constant} (hclose : t.kind ≠ .rightBracket)
    (hc : constant? number = some c) : (State.bracketNumber number head path place).react t =
      afterOperand (.constant c) .empty (.filter head path place) t := by
  simp [State.react, State.entry, State.step, hclose, hc]

theorem bracketNumber_answers {number : Token} {c : Constant} (hc : constant? number = some c) :
    ((State.bracketNumber number head path place).react t).Answers before t (fun rest =>
        (State.bracketNumber number head path place).costs (t :: rest)) ∨
      t.kind = .rightBracket ∧ Decimal.Integer.ofText? number.text = none ∧
        ((State.bracketNumber number head path place).react t).value =
          .error (Expectation.integerIndex.butFound number) := by
  by_cases hclose : t.kind = .rightBracket
  · cases hi : Decimal.Integer.ofText? number.text with
    | some i =>
      left
      simp only [State.react, State.step, hclose, hi]
      exact answers_go (.of_closing (.inr hclose) not_false rfl rfl fun _ => rfl)
    | none =>
      right
      simp only [State.react, State.step, hclose, hi]
      exact ⟨trivial, trivial, rfl⟩
  · rw [bracketNumber_react hclose hc]
    refine .inl (afterOperand_answers.congr fun rest => ?_)
    simp [State.costs, ExprHole.costs, nextIs, hclose]

/-- An opening parenthesis after a name. -/
theorem opensCall_answers {withDollar : Bool} {name : String} (hkind : t.kind = .leftParen)
    (hbefore : before.any (·.kind == .identifier) = true) :
    (go (.callOpened withDollar name chain hole)).Answers before t fun _ => hole.costs := by
  refine answers_go (.of_opening (by simp [Token.isOpening, hkind]) trivial fun _ => ?_)
  simp only [State.costs, Token.account, hkind, parenCost, hbefore, Bool.true_and]

/-- A selector does not begin with a closing parenthesis. -/
theorem State.Accepts.nextIs_rightParen_of_selector (h : (State.scopedDue place).Accepts rest) :
    nextIs .rightParen rest = false :=
  h.nextIs_eq_false fun hkind => by
    simp [react, entry, step, beginSelector, beginStep, hkind, refuse]

/-- The parenthesis of a scoped selector. -/
theorem opensScoped_answers (hkind : t.kind = .leftParen) :
    (go (.scopedDue (.scoped place))).Answers before t fun _ => place.costs := by
  refine answers_go (.of_opening (by simp [Token.isOpening, hkind]) trivial fun h => ?_)
  simp [State.costs, SelectorHole.costs, Token.account, hkind, parenCost,
    h.nextIs_rightParen_of_selector]

/-- The second bracket of a step. -/
theorem opensSecond_answers {f : Filter} (hkind : t.kind = .leftBracket) :
    (go (.secondBracket f head path place)).Answers before t fun _ => place.costs := by
  refine answers_go (.of_opening (by simp [Token.isOpening, hkind]) trivial fun h => ?_)
  simp only [State.costs, Token.account, hkind, h.bracketCost_eq_zero]

theorem State.answers_of_kept?_eq_none (hparsed : s.parsed? = none) (hkept : s.kept? = none)
    (hbefore : s.IsNamed → before.any (·.kind == .identifier) = true) :
    (s.react t).Answers before t fun rest => s.costs (t :: rest) := by
  cases s with
  | expressionDue hole =>
    simp only [react, entry, step, beginExpression, within_self]
    exact beginOperand_answers
  | operandDue chain hole => exact beginOperand_answers
  | dollar chain hole =>
    simp only [react, step]
    split
    · rename_i hkind
      exact answers_go (.of_neutral (hkind ▸ rfl) (fun _ => hkind) rfl rfl fun _ => rfl)
    · rename_i hkind
      exact opensScoped_answers hkind
    · exact answers_refuse _
  | dollarName name chain hole =>
    simp only [react, step]
    split
    · rename_i hkind
      exact opensCall_answers hkind (hbefore trivial)
    · exact afterOperand_answers
  | leadingName name chain hole =>
    simp only [react, step]
    split
    · rename_i hkind
      exact opensCall_answers hkind (hbefore trivial)
    · exact afterFirstName_answers
  | callOpened withDollar name chain hole => exact callOpened_answers
  | operandDone e chain hole => exact afterOperand_answers
  | scopedDue place =>
    simp only [react, entry, step, within_self]
    exact beginSelector_answers
  | selectorDue place => exact beginSelector_answers
  | selectorDollar place =>
    simp only [react, step]
    split
    · rename_i hkind
      exact opensScoped_answers hkind
    · exact answers_refuse _
  | selectorDone s place => exact SelectorHole.resume_answers
  | stepDue path place => exact beginStep_answers
  | nodeNameDue | localNameDue =>
    simp only [react, step]
    split
    case h_3 => exact answers_refuse _
    all_goals
      rename_i hkind
      exact answers_go (.of_neutral (hkind ▸ rfl) False.elim rfl rfl fun _ => rfl)
  | firstName isAttribute name path place => exact afterFirstName_answers
  | stepName head path place => exact afterStepName_answers
  | bracket head path place => exact bracket_answers
  | bracketNumber number head path place => cases hkept
  | indexed i head path place =>
    simp only [react, step]
    split
    · rename_i hkind
      exact opensSecond_answers hkind
    · exact afterStep_answers
  | filtered f head path place =>
    simp only [react, step]
    split
    · rename_i hkind
      exact opensSecond_answers hkind
    · exact afterStep_answers
  | secondBracket f head path place =>
    simp only [react, step]
    split
    · rename_i hkind
      split
      · exact answers_go (.of_neutral (hkind ▸ rfl) False.elim rfl rfl fun _ => rfl)
      · exact answers_refuse _
    · exact answers_refuse _
  | secondIndex f i head path place =>
    simp only [react, step]
    split
    · rename_i hkind
      exact answers_go (.of_closing (.inr hkind) not_false rfl rfl fun _ => rfl)
    · exact answers_refuse _
  | stepDone path place => exact afterStep_answers
  | accepted parsed => cases hparsed

/-- Every state answers a token, except that a number which it keeps may turn out to be no index. -/
theorem State.answers (hparsed : s.parsed? = none)
    (hbefore : s.IsNamed → before.any (·.kind == .identifier) = true)
    (hkept : ∀ number, s.kept? = some number → (constant? number).isSome = true) :
    (s.react t).Answers before t (fun rest => s.costs (t :: rest)) ∨
      ∃ number, s.kept? = some number ∧ t.kind = .rightBracket ∧
        Decimal.Integer.ofText? number.text = none ∧
        (s.react t).value = .error (Expectation.integerIndex.butFound number) := by
  cases s with
  | bracketNumber number head path place =>
    obtain ⟨c, hc⟩ := Option.isSome_iff_exists.1 (hkept number rfl)
    refine (bracketNumber_answers hc).imp_right fun ⟨hclose, hi, hreact⟩ => ?_
    exact ⟨number, rfl, hclose, hi, hreact⟩
  | accepted parsed => cases hparsed
  | _ => exact .inl (answers_of_kept?_eq_none hparsed rfl hbefore)

end MapExpr.Parse
