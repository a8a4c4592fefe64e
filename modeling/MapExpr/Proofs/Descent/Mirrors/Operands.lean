import MapExpr.Proofs.Descent.Mirrors.Selectors

/-!
# Operands beside a reader

The rules of a descent for constants, calls and primaries mirror the reader, if a constant can be
made of every token that stands for one.

* `Token.IsReadable`, `Input.Readable`: such tokens;
* `mirrors_constant`, `mirrors_functionCall`, `mirrors_primary`: the rules;
* `afterPrimary`: a selector that is the first operand may still begin a union.
-/

namespace MapExpr

open Parse (State Outcome ExprHole SelectorHole Chain Expectation Operator)

/-- What a descent relies on when it makes a constant of a token. -/
structure Token.IsReadable (t : Token) : Prop where
  number : t.kind = .number → (Decimal.ofText? t.text).isSome = true
  literal : t.kind = .literal →
    Span.slice? t.text ⟨1, t.text.utf8ByteSize - 1⟩ = some (Parse.unquoted t.text)

namespace Descent

variable {inp : Input} {i : Inner} {final : Except ParseError State} {depth k : Nat} {c : Cursor}
  {chain : Chain} {hole : ExprHole} {e : Expr} {t : Token}

/-- All tokens of constants can be read. -/
def Input.Readable (inp : Input) : Prop :=
  ∀ t ∈ inp.tokens, t.IsReadable

theorem Input.Readable.tokenAt (hread : inp.Readable) (hinp : inp.Marked) (j : Nat) :
    (inp.tokenAt j).IsReadable := by
  by_cases hj : j < inp.tokens.length
  · rw [Input.tokenAt, List.getElem?_eq_getElem hj]
    exact hread _ (List.getElem_mem hj)
  · obtain ⟨front, htokens, -⟩ := hinp.exists_front
    rw [Input.tokenAt, List.getElem?_eq_none (Nat.le_of_not_lt hj)]
    exact hread _ (by simp [htokens])

/-! ## Primaries -/

theorem mirrors_constant (hinp : inp.Marked) (hread : inp.Readable)
    (h : inp.Continues final depth (Parse.beginConstant chain hole) c)
    (hkind : (inp.tokenAt c.pos).kind ∈ [.number, .systemWord, .literal]) :
    Mirrors final (fun k => inp.Continues final depth
      (Parse.afterOperand (.constant k) chain hole)) (inp.constant c) := by
  have hgo : ∀ {k : Constant}, Parse.constant? (inp.tokenAt c.pos) = some k →
      inp.Continues final depth (Parse.afterOperand (.constant k) chain hole) c.next := by
    intro k hk
    refine h.next hinp (s := .operandDone (.constant k) chain hole) ?_ ?_
    · rintro heof
      simp [heof] at hkind
    · simp only [Parse.beginConstant, hk]
      rfl
  refine .activate _ ?_
  simp only [List.mem_cons, List.not_mem_nil, or_false] at hkind
  rcases hkind with hkind | hkind | hkind
  · rw [Input.bind_advance _ (by simp [hkind])]
    obtain ⟨d, hd⟩ := Option.isSome_iff_exists.1 ((hread.tokenAt hinp c.pos).number hkind)
    simp only [hkind, hd]
    exact .pure (hgo (by simp only [Parse.constant?, hkind, hd]; rfl))
  · rw [Input.bind_advance _ (by simp [hkind])]
    simp only [hkind]
    exact .pure (hgo (by simp only [Parse.constant?, hkind]))
  · rw [Input.bind_advance _ (by simp [hkind])]
    simp only [hkind, (hread.tokenAt hinp c.pos).literal hkind]
    exact .pure (hgo (by simp only [Parse.constant?, hkind]))

/-- What the token `t` does after the operand `e`, which may still begin a union. -/
def afterPrimary (e : Expr) (chain : Chain) (hole : ExprHole) (t : Token) : Outcome :=
  match e with
  | .selector s => SelectorHole.resume (.operand chain hole) s t
  | e => Parse.afterOperand e chain hole t

theorem mirrors_arguments {withDollar : Bool} {x : String} (hinp : inp.Marked)
    (hi : Mirrored inp final i) (n : Nat)
    (es : List Expr) (h : inp.Continues final hole.depth
      (Parse.beginExpression inp.limit (.argument withDollar x es.reverse chain hole)) c) :
    Mirrors final (fun es c' => ∃ e before, es = (e :: before).reverse ∧
      (inp.tokenAt c'.pos).kind ≠ .comma ∧ inp.Continues final hole.depth
        (ExprHole.resume (.argument withDollar x before chain hole) e) c')
      (inp.arguments i n es c) := by
  induction n generalizing es c with
  | zero => exact .exhausted
  | succ n ih =>
    have hround : Mirrors final (fun next c' =>
        if next.2 then inp.Continues final hole.depth (Parse.beginExpression inp.limit
          (.argument withDollar x next.1.reverse chain hole)) c'
        else ∃ e before, next.1 = (e :: before).reverse ∧ (inp.tokenAt c'.pos).kind ≠ .comma ∧
          inp.Continues final hole.depth
            (ExprHole.resume (.argument withDollar x before chain hole) e) c')
        (activate (.round .arguments) (do
          let e ← inp.nestedBy 1 i.expression
          let comma ← inp.eat .comma
          pure (es ++ [e], comma.isSome)) c) := by
      refine .activate _ ((mirrors_nestedBy h rfl (hi.expression _)).bind fun e c' h => ?_)
      refine .bind_eat (by simp) (fun hcomma => .pure ?_) fun hcomma => .pure ?_
      · have h := h.next hinp (s := .expressionDue (.argument withDollar x (e :: es.reverse) chain
          hole)) (hcomma.trans_ne (by simp)) (by simp only [ExprHole.resume, hcomma]; rfl)
        rw [Option.isSome_some, if_pos rfl, List.reverse_append]
        exact h
      · exact ⟨e, es.reverse, by simp, hcomma, h⟩
    refine hround.bind fun next c' h => ?_
    split at h
    · rename_i hnext
      rw [if_pos hnext]
      exact ih _ h
    · rename_i hnext
      rw [if_neg hnext]
      exact .pure h

theorem mirrors_argumentList {withDollar : Bool} {x : String} (hinp : inp.Marked)
    (hi : Mirrored inp final i)
    (h : inp.Continues final hole.depth
      (State.step inp.limit (.callOpened withDollar x chain hole)) c) :
    Mirrors final (fun es c' => ((inp.tokenAt c'.pos).kind ≠ .rightParen →
        final = .error (inp.found c' Expectation.nextArgument.text)) ∧
      ((inp.tokenAt c'.pos).kind = .rightParen → inp.Continues final hole.depth
        (Parse.afterOperand (.call (.mk withDollar x es)) chain hole) c'.next))
      (inp.argumentList i c) := by
  rw [Input.argumentList, Input.bind_peek]
  split
  · rename_i hclose
    refine .pure ⟨absurd hclose, fun _ => h.next hinp (s := .operandDone
      (.call (.mk withDollar x [])) chain hole) (hclose.trans_ne (by simp)) ?_⟩
    simp only [State.step, hclose]
    rfl
  · have h : inp.Continues final hole.depth
        (Parse.beginExpression inp.limit (.argument withDollar x [] chain hole)) c :=
      h.congr (by simp only [State.step])
    refine (mirrors_arguments hinp hi i.rounds [] h).imp ?_
    rintro _ c' ⟨e, before, rfl, hcomma, h⟩
    refine ⟨fun hclose => h.eq_error ?_, fun hclose => h.next hinp (s := .operandDone
      (.call (.mk withDollar x (e :: before).reverse)) chain hole) (hclose.trans_ne (by simp)) ?_⟩
    · simp only [ExprHole.resume]
      rfl
    · simp only [ExprHole.resume, hclose]
      rfl

theorem mirrors_functionCall (hinp : inp.Marked) (hi : Mirrored inp final i)
    (h : inp.Continues final hole.depth (Parse.beginOperand chain hole) c)
    (hahead : (inp.tokenAt c.pos).kind = .identifier ∧
        (inp.tokenAt (c.pos + 1)).kind = .leftParen ∨
      (inp.tokenAt c.pos).kind = .dollar ∧ (inp.tokenAt (c.pos + 1)).kind = .identifier ∧
        (inp.tokenAt (c.pos + 2)).kind = .leftParen) :
    Mirrors final (fun f => inp.Continues final hole.depth
      (Parse.afterOperand (.call f) chain hole)) (inp.functionCall i c) := by
  have hopened : ∀ {c' : Cursor} (dollar : Option Token),
      (inp.tokenAt c'.pos).kind = .identifier → (inp.tokenAt c'.next.pos).kind = .leftParen →
      inp.Continues final hole.depth (State.step inp.limit
        (.callOpened dollar.isSome (inp.tokenAt c'.pos).text chain hole)) c'.next.next →
      Mirrors final (fun f => inp.Continues final hole.depth
        (Parse.afterOperand (.call f) chain hole)) ((do
        let name ← inp.expect .identifier "a function name"
        let _ ← inp.expect .leftParen Expectation.openingParen.text
        let es ← inp.argumentList i
        let _ ← inp.expect .rightParen Expectation.nextArgument.text
        pure (MapExpr.Call.mk dollar.isSome name.text es)) c') := by
    intro c' dollar hname hopen h
    rw [Input.bind_expect_of_eq _ hname (by simp), Input.bind_expect_of_eq _ hopen (by simp)]
    refine (mirrors_argumentList hinp hi h).bind fun es c'' h => ?_
    by_cases hclose : (inp.tokenAt c''.pos).kind = .rightParen
    · rw [Input.bind_expect_of_eq _ hclose (by simp)]
      exact .pure (h.2 hclose)
    · rw [Input.bind_expect_of_ne _ hclose]
      exact .fault (h.1 hclose)
  refine .activate _ ?_
  rcases hahead with ⟨hname, hopen⟩ | ⟨hdollar, hname, hopen⟩
  · rw [Input.bind_eat_of_ne _ (hname.trans_ne (by simp))]
    have h := h.next hinp (s := .leadingName (inp.tokenAt c.pos).text chain hole)
      (hname.trans_ne (by simp)) (by simp only [Parse.beginOperand, hname]; rfl)
    have hparen : (inp.tokenAt c.next.pos).kind = .leftParen := hopen
    exact hopened none hname hopen (h.next hinp (hparen.trans_ne (by simp))
      (by simp only [State.step, hparen]; rfl))
  · rw [Input.bind_eat_of_eq _ hdollar (by simp)]
    have h := h.next hinp (s := .dollar chain hole)
      (hdollar.trans_ne (by simp)) (by simp only [Parse.beginOperand, hdollar]; rfl)
    have hname : (inp.tokenAt c.next.pos).kind = .identifier := hname
    have hparen : (inp.tokenAt c.next.next.pos).kind = .leftParen := hopen
    have h := h.next hinp (s := .dollarName (inp.tokenAt c.next.pos).text chain hole)
      (hname.trans_ne (by simp)) (by simp only [State.step, hname]; rfl)
    exact hopened (some _) hname hopen (h.next hinp (hparen.trans_ne (by simp))
      (by simp only [State.step, hparen]; rfl))

theorem mirrors_primary (hinp : inp.Marked) (hread : inp.Readable) (hi : Mirrored inp final i)
    (h : inp.Continues final hole.depth (Parse.beginOperand chain hole) c) :
    Mirrors final (fun e => inp.Continues final hole.depth (afterPrimary e chain hole))
      (inp.primary i c) := by
  have hselector : inp.Continues final (SelectorHole.operand chain hole).depth
        (Parse.beginSelector (.operand chain hole)) c →
      Mirrors final (fun e => inp.Continues final hole.depth (afterPrimary e chain hole))
        ((do let s ← inp.selector i; pure (Expr.selector s)) c) := fun h =>
    (mirrors_selector hinp hi h).bind fun s c' h => .pure h
  refine .activate _ ?_
  rw [Input.bind_peek]
  cases hkind : (inp.tokenAt c.pos).kind with
  | number | systemWord | literal =>
    have h : inp.Continues final hole.depth (Parse.beginConstant chain hole) c :=
      h.congr (by simp only [Parse.beginOperand, hkind])
    exact (mirrors_constant hinp hread h (by simp [hkind])).bind fun k c' h => .pure h
  | dollar =>
    have hne : (inp.tokenAt c.pos).kind ≠ .eof := hkind.trans_ne (by simp)
    have hbegin : (Parse.beginOperand chain hole (inp.tokenAt c.pos)).value =
        .ok (.dollar chain hole) := by
      simp only [Parse.beginOperand, hkind]
      rfl
    simp only [Input.bind_peekNth]
    cases hsecond : (inp.tokenAt (c.pos + 1)).kind with
    | identifier =>
      simp only [Input.bind_peekNth]
      split
      · rename_i hthird
        exact (mirrors_functionCall hinp hi h (.inr ⟨hkind, hsecond, hthird⟩)).bind
          fun f c' h => .pure h
      · rename_i hthird
        have hname : (inp.tokenAt c.next.pos).kind = .identifier := hsecond
        have hthird : (inp.tokenAt c.next.next.pos).kind ≠ .leftParen := hthird
        refine .bind_advance _ hinp h hne hbegin fun h => ?_
        refine .bind_advance (.dollarName _ chain hole) hinp h (hname.trans_ne (by simp))
          (by simp only [State.step, hname]; rfl) fun h => .pure (h.congr ?_)
        simp only [State.step, afterPrimary]
    | leftParen =>
      refine hselector (h.congr_next _ (.selectorDollar (.operand chain hole)) hinp hne hbegin
        (by simp only [Parse.beginSelector, hkind]; rfl) ?_)
      simp only [State.step, Cursor.pos_next, hsecond]
    | _ =>
      refine .fault ((h.next hinp hne hbegin).eq_error ?_)
      simp only [State.step, Cursor.pos_next, hsecond]
      rfl
  | identifier =>
    simp only [Input.bind_peekNth]
    split
    · rename_i hsecond
      exact (mirrors_functionCall hinp hi h (.inl ⟨hkind, hsecond⟩)).bind fun f c' h => .pure h
    · rename_i hsecond
      have hsecond : (inp.tokenAt c.next.pos).kind ≠ .leftParen := hsecond
      refine hselector (h.congr_next (.leadingName _ chain hole)
        (.firstName false _ ⟨false, []⟩ (.operand chain hole)) hinp (hkind.trans_ne (by simp))
        (by simp only [Parse.beginOperand, hkind]; rfl)
        (by simp only [Parse.beginSelector, Parse.beginStep, hkind]; rfl) ?_)
      simp only [State.step]
  | leftParen =>
    refine .bind_advance (.expressionDue (.group chain hole)) hinp h (hkind.trans_ne (by simp))
      (by simp only [Parse.beginOperand, hkind]; rfl) fun h => ?_
    refine (mirrors_nestedBy h rfl (hi.expression (.group chain hole))).bind fun e c' h => ?_
    refine .bind_expect (.operandDone (.group e) chain hole) hinp h (by simp) (fun hclose => ?_)
      (fun hclose => ?_) fun h => .pure h
    · simp only [ExprHole.resume]
      rfl
    · simp only [ExprHole.resume, hclose]
      rfl
  | slash | dot | dotDot | star | atSign =>
    exact hselector (h.congr (by simp only [Parse.beginOperand, hkind]; rfl))
  | _ => exact .unexpected _ (h.eq_error (by simp only [Parse.beginOperand, hkind]; rfl))

end Descent

end MapExpr
