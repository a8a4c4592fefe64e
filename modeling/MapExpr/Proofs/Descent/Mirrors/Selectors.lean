import MapExpr.Proofs.Descent.Mirrors.Basic
import MapExpr.Proofs.Grammar.Reads.Selectors

/-!
# Selectors beside a reader

The rules of a descent for names, brackets, steps and selectors mirror the reader. The rules look
ahead where the reader keeps a token in its state, so the two are compared at the token that
decides.

* `Mirrored`: what a rule needs of the expressions and selectors in brackets;
* `mirrors_nodeName`, `mirrors_predicate`, `mirrors_step`, `mirrors_selector`: the rules;
* `continues_filter`: a number that the reader keeps is the beginning of an expression.
-/

namespace MapExpr.Descent

open Parse (State Outcome ExprHole SelectorHole Path StepHead Chain Expectation)

variable {inp : Input} {i : Inner} {final : Except ParseError State} {depth : Nat} {c : Cursor}
  {chain : Chain} {hole : ExprHole} {path : Path} {head : StepHead} {outer : SelectorHole}

/-- What a rule needs of the expressions and selectors in brackets. -/
structure Mirrored (inp : Input) (final : Except ParseError State) (i : Inner) : Prop where
  expression : ∀ (hole : ExprHole) (c : Cursor),
    inp.Continues final hole.depth (Parse.beginOperand .empty hole) c →
    Mirrors final (fun e => inp.Continues final hole.depth (hole.resume e)) (i.expression c)
  selector : ∀ (hole : SelectorHole) (c : Cursor),
    inp.Continues final hole.depth (Parse.beginSelector hole) c →
    Mirrors final (fun s => inp.Continues final hole.depth (hole.resume s)) (i.selector c)

/-! ## Names -/

/-- The token `t` stands where the name of a step is due. -/
def beginName (isAttribute : Bool) (path : Path) (outer : SelectorHole) (t : Token) : Outcome :=
  match t.kind with
  | .identifier => .go (.firstName isAttribute t.text path outer)
  | .star => .go (.stepName ⟨isAttribute, ⟨none, .wildcard⟩⟩ path outer)
  | _ => .refuse .nodeName t

theorem mirrors_qualifier {isAttribute : Bool} (hinp : inp.Marked)
    (h : inp.Continues final depth (beginName isAttribute path outer) c) :
    Mirrors final (fun q c' => match q with
      | some x => inp.Continues final depth
          (State.step inp.limit (.localNameDue isAttribute x path outer)) c'
      | none => inp.Continues final depth (beginName isAttribute path outer) c' ∧
          ¬ ((inp.tokenAt c'.pos).kind = .identifier ∧ (inp.tokenAt (c'.pos + 1)).kind = .colon))
      (inp.qualifier c) := by
  rw [Input.qualifier, Input.bind_peek, Input.bind_peekNth]
  split
  · rename_i hahead
    refine .bind_advance (.firstName isAttribute _ path outer) hinp h (by simp [hahead.1])
      (by simp only [beginName, hahead.1]; rfl) fun h => ?_
    refine .bind_advance (.localNameDue isAttribute _ path outer) hinp h (by simp [hahead.2]) ?_
      fun h => .pure h
    simp only [State.step, Parse.afterFirstName, Cursor.pos_next, hahead.2]
    rfl
  · rename_i hahead
    exact .pure ⟨h, hahead⟩

theorem mirrors_nodeName {isAttribute : Bool} (hinp : inp.Marked)
    (h : inp.Continues final depth (beginName isAttribute path outer) c) :
    Mirrors final (fun q => inp.Continues final depth
      (Parse.afterStepName ⟨isAttribute, q⟩ path outer)) (inp.nodeName c) := by
  refine .activate _ ((mirrors_qualifier hinp h).bind fun q c' h => ?_)
  rw [Input.bind_peek]
  cases q with
  | some x =>
    cases hkind : (inp.tokenAt c'.pos).kind with
    | identifier | star =>
      exact .bind_advance (.stepName ⟨isAttribute, _⟩ path outer) hinp h (by simp [hkind])
        (by simp only [State.step, hkind]; rfl) fun h => .pure h
    | _ => exact .unexpected _ (h.eq_error (by simp only [State.step, hkind]; rfl))
  | none =>
    obtain ⟨h, hcolon⟩ := h
    cases hkind : (inp.tokenAt c'.pos).kind with
    | identifier =>
      have hcolon : (inp.tokenAt c'.next.pos).kind ≠ .colon := fun hnext => hcolon ⟨hkind, hnext⟩
      refine .bind_advance (.firstName isAttribute _ path outer) hinp h (by simp [hkind])
        (by simp only [beginName, hkind]; rfl) fun h => .pure (h.congr ?_)
      simp only [State.step, Parse.afterFirstName]
      rfl
    | star =>
      exact .bind_advance (.stepName ⟨isAttribute, _⟩ path outer) hinp h (by simp [hkind])
        (by simp only [beginName, hkind]; rfl) fun h => .pure h
    | _ => exact .unexpected _ (h.eq_error (by simp only [beginName, hkind]; rfl))

/-! ## Brackets -/

/-- The first brackets of a step, which hold an index. -/
theorem mirrors_firstIndex (hinp : inp.Marked)
    (h : inp.Continues final depth (Parse.afterStepName head path outer) c)
    (hopen : (inp.tokenAt c.pos).kind = .leftBracket)
    (hwhole : (inp.tokenAt (c.pos + 1)).isWhole = true)
    (hclose : (inp.tokenAt (c.pos + 2)).kind = .rightBracket) :
    Mirrors final (fun j => inp.Continues final depth
      (State.step inp.limit (.indexed j head path outer))) (inp.index c) := by
  have hnumber : (inp.tokenAt (c.pos + 1)).kind = .number := by
    simpa using (Bool.and_eq_true_iff.1 hwhole).1
  refine .activate _ ?_
  refine .bind_expect (.bracket head path outer) hinp h (by simp) (absurd hopen) (fun _ => ?_)
    fun h => ?_
  · simp only [Parse.afterStepName, hopen]
    rfl
  refine .bind_expect (.bracketNumber (inp.tokenAt (c.pos + 1)) head path outer) hinp h (by simp)
    (absurd hnumber) (fun _ => ?_) fun h => ?_
  · simp only [State.step, Cursor.pos_next, hnumber, hwhole]
    rfl
  cases hvalue : Decimal.Integer.ofText? (inp.tokenAt c.next.pos).text with
  | some j =>
    refine .bind_expect (.indexed j head path outer) hinp h (by simp) (absurd hclose) (fun _ => ?_)
      fun h => .pure h
    simp only [State.step, Cursor.pos_next, hclose] at hvalue ⊢
    rw [hvalue]
    rfl
  | none =>
    refine .fault (h.eq_error ?_)
    simp only [State.step, Cursor.pos_next, hclose] at hvalue ⊢
    rw [hvalue]
    rfl

/-- The second brackets of a step, which hold an index too. -/
theorem mirrors_secondIndex {o : Token → Outcome} {f : Filter} (hinp : inp.Marked)
    (h : inp.Continues final depth o c) (hopen : (inp.tokenAt c.pos).kind = .leftBracket)
    (ho : (o (inp.tokenAt c.pos)).value = .ok (.secondBracket f head path outer)) :
    Mirrors final (fun j => inp.Continues final depth
      (Parse.afterStep (path.push (head.toStep (.filterThenIndex f j))) outer)) (inp.index c) := by
  refine .activate _ ?_
  refine .bind_expect _ hinp h (by simp) (absurd hopen) (fun _ => ho) fun h => ?_
  by_cases hnumber : (inp.tokenAt c.next.pos).kind = .number
  · rw [Input.bind_expect_of_eq _ hnumber (by simp)]
    cases hvalue : Decimal.Integer.ofText? (inp.tokenAt c.next.pos).text with
    | some j =>
      have h := h.next hinp (s := .secondIndex f j head path outer)
        (hnumber.trans_ne (by simp)) (by simp only [State.step, hnumber, hvalue]; rfl)
      refine .bind_expect (.stepDone (path.push (head.toStep (.filterThenIndex f j))) outer) hinp h
        (by simp) (fun hclose => ?_) (fun hclose => ?_) fun h => .pure h
      · simp only [State.step]
        rfl
      · simp only [State.step, hclose]
        rfl
    | none =>
      exact .fault (h.eq_error (by simp only [State.step, hnumber, hvalue]; rfl))
  · rw [Input.bind_expect_of_ne _ hnumber]
    exact h.eq_error (by simp only [State.step]; rfl)

/-- In the brackets of a filter, a number without a point that comes first is read again as the
beginning of an expression. -/
theorem continues_filter (hinp : inp.Marked)
    (h : inp.Continues final depth (State.step inp.limit (.bracket head path outer)) c)
    (hclose : (inp.tokenAt c.pos).kind ≠ .rightBracket)
    (hahead : ¬ ((inp.tokenAt c.pos).isWhole = true ∧
      (inp.tokenAt (c.pos + 1)).kind = .rightBracket)) :
    inp.Continues final depth (Parse.beginExpression inp.limit (.filter head path outer)) c := by
  by_cases hwhole : (inp.tokenAt c.pos).isWhole = true
  · have hnumber : (inp.tokenAt c.pos).kind = .number := by
      simpa using (Bool.and_eq_true_iff.1 hwhole).1
    have hlt : c.pos < inp.last := hinp.lt_last (by simp [hnumber])
    have hle : c.next.pos ≤ inp.last := hlt
    have hsecond : (inp.tokenAt c.next.pos).kind ≠ .rightBracket :=
      fun hsecond => hahead ⟨hwhole, hsecond⟩
    have hnext := h.next hinp (s := .bracketNumber (inp.tokenAt c.pos) head path outer)
      (by simp [hnumber]) (by simp only [State.step, hnumber, hwhole]; rfl)
    refine ⟨?_, h.depth_eq⟩
    -- the reader has gone one token further: its run from there is that of both tokens
    rw [← hnext.goes_eq, hinp.goes_step hle, hinp.drop_eq hle,
      Grammar.Category.run_bracketNumber hnumber hsecond,
      ← hinp.drop_eq hle, Cursor.pos_next, ← hinp.drop_eq (Nat.le_of_lt hlt),
      ← hinp.goes_step (Nat.le_of_lt hlt)]
    rfl
  · refine h.congr ?_
    simp only [State.step, hwhole]
    rfl

theorem mirrors_filter (hinp : inp.Marked) (hi : Mirrored inp final i)
    (h : inp.Continues final outer.depth (Parse.afterStepName head path outer) c)
    (hopen : (inp.tokenAt c.pos).kind = .leftBracket)
    (hahead : ¬ ((inp.tokenAt (c.pos + 1)).isWhole = true ∧
      (inp.tokenAt (c.pos + 2)).kind = .rightBracket)) :
    Mirrors final (fun f => inp.Continues final outer.depth
      (State.step inp.limit (.filtered f head path outer))) (inp.filter i c) := by
  refine .activate _ ?_
  refine .bind_expect (.bracket head path outer) hinp h (by simp) (absurd hopen) (fun _ => ?_)
    fun h => ?_
  · simp only [Parse.afterStepName, hopen]
    rfl
  by_cases hclose : (inp.tokenAt c.next.pos).kind = .rightBracket
  · rw [Input.bind_eat_of_eq _ hclose (by simp)]
    exact .pure (h.next hinp (hclose.trans_ne (by simp)) (by simp only [State.step, hclose]; rfl))
  · rw [Input.bind_eat_of_ne _ hclose]
    have hbody := continues_filter hinp h hclose hahead
    refine (mirrors_nestedBy hbody rfl (hi.expression (.filter head path outer))).bind
      fun e c' h => ?_
    refine .bind_expect (.filtered (.ofExpr e) head path outer) hinp h (by simp) (fun hclose => ?_)
      (fun hclose => ?_) fun h => .pure h
    · simp only [ExprHole.resume]
      rfl
    · simp only [ExprHole.resume, hclose]
      rfl

theorem mirrors_predicate (hinp : inp.Marked) (hi : Mirrored inp final i)
    (h : inp.Continues final outer.depth (Parse.afterStepName head path outer) c) :
    Mirrors final (fun p => inp.Continues final outer.depth
      (Parse.afterStep (path.push (head.toStep p)) outer)) (inp.predicate i c) := by
  refine .activate _ ?_
  rw [Input.bind_peek]
  split
  · rename_i hopen
    rw [Input.bind_indexAhead]
    split
    · rename_i hahead
      simp only [hopen, beq_self_eq_true, Bool.true_and, Bool.and_eq_true, beq_iff_eq] at hahead
      refine (mirrors_firstIndex hinp h hopen hahead.1 hahead.2).bind fun j c' h => ?_
      rw [Input.bind_peek]
      split
      · rename_i hsecond
        exact (mirrors_secondIndex hinp h hsecond (by simp only [State.step, hsecond]; rfl)).bind
          fun _ _ h => .pure h
      · exact .pure (h.congr (by simp only [State.step]))
    · rename_i hahead
      simp only [hopen, beq_self_eq_true, Bool.true_and, Bool.and_eq_true, beq_iff_eq] at hahead
      refine (mirrors_filter hinp hi h hopen hahead).bind fun f c' h => ?_
      rw [Input.bind_peek]
      split
      · rename_i hsecond
        exact (mirrors_secondIndex hinp h hsecond (by simp only [State.step, hsecond]; rfl)).bind
          fun _ _ h => .pure h
      · exact .pure (h.congr (by simp only [State.step]))
  · exact .pure (h.congr (by simp only [Parse.afterStepName]))

/-! ## Steps and selectors -/

theorem mirrors_step (hinp : inp.Marked) (hi : Mirrored inp final i)
    (h : inp.Continues final outer.depth (Parse.beginStep path outer) c) :
    Mirrors final (fun t => inp.Continues final outer.depth (Parse.afterStep (path.push t) outer))
      (inp.step i c) := by
  have hnamed : ∀ {c' : Cursor} (mark : Option Token),
      inp.Continues final outer.depth (beginName mark.isSome path outer) c' →
      Mirrors final (fun t => inp.Continues final outer.depth
        (Parse.afterStep (path.push t) outer)) ((do
        let name ← inp.nodeName
        let p ← inp.predicate i
        pure (Step.named mark.isSome name p)) c') := fun mark h =>
    (mirrors_nodeName hinp h).bind fun name c' h => (mirrors_predicate hinp hi h).bind
      fun p c'' h => .pure h
  refine .activate _ ?_
  rw [Input.bind_peek]
  cases hkind : (inp.tokenAt c.pos).kind with
  | dotDot | dot =>
    exact .bind_advance (.stepDone (path.push _) outer) hinp h (by simp [hkind])
      (by simp only [Parse.beginStep, hkind]; rfl) fun h => .pure h
  | atSign =>
    refine .bind_eat (by simp) (fun _ => hnamed (some _) ?_) (absurd hkind)
    exact h.next hinp (s := .nodeNameDue path outer) (by simp [hkind])
      (by simp only [Parse.beginStep, hkind]; rfl)
  | identifier | star =>
    refine .bind_eat (by simp) (fun hat => absurd (hkind.symm.trans hat) (by simp))
      fun _ => hnamed none (h.congr ?_)
    simp only [Parse.beginStep, beginName, hkind]
    rfl
  | _ => exact .unexpected _ (h.eq_error (by simp only [Parse.beginStep, hkind]; rfl))

theorem mirrors_selector (hinp : inp.Marked) (hi : Mirrored inp final i)
    (h : inp.Continues final outer.depth (Parse.beginSelector outer) c) :
    Mirrors final (fun s => inp.Continues final outer.depth (outer.resume s))
      (inp.selector i c) := by
  have hsteps : ∀ {c' : Cursor} (slash : Option Token),
      inp.Continues final outer.depth (Parse.beginStep ⟨slash.isSome, []⟩ outer) c' →
      Mirrors final (fun s => inp.Continues final outer.depth (outer.resume s)) ((do
        let first ← inp.step i
        let ss ←
          inp.whileAhead .steps (Kind.isExactly .slash) (inp.furtherStep i) i.rounds [first]
        pure (Selector.steps slash.isSome ss)) c') := by
    intro c' slash h
    refine (mirrors_step hinp hi h).bind fun first c'' h => .bind (P := fun ss c₃ =>
      inp.Continues final outer.depth (outer.resume (.steps slash.isSome ss)) c₃) ?_
      fun ss c₃ h => .pure h
    refine .whileAhead (I := fun (ss : List Step) => inp.Continues final outer.depth
      (Parse.afterStep ⟨slash.isSome, ss.reverse⟩ outer)) rfl ?_ ?_ _ h
    · intro ss _ c₃ h hne hslash
      have hslash := isExactly_eq_some hslash
      have h := h.next hinp (s := .stepDue ⟨slash.isSome, ss.reverse⟩ outer) hne
        (by simp only [Parse.afterStep, hslash]; rfl)
      refine (mirrors_step hinp hi h).bind fun s c₄ h => .pure ?_
      rw [List.reverse_append]
      exact h
    · intro ss c₃ h hslash
      have hslash := isExactly_eq_none hslash
      have hss : Path.toSelector ⟨slash.isSome, ss.reverse⟩ = .steps slash.isSome ss := by
        rw [Path.toSelector, List.reverse_reverse]
      exact h.congr (by simp only [Parse.afterStep, hss])
  refine .activate _ (.bind_eat (by simp) (fun hdollar => ?_) fun hdollar => ?_)
  · have h := h.next hinp (s := .selectorDollar outer) (hdollar.trans_ne (by simp))
      (by simp only [Parse.beginSelector, hdollar]; rfl)
    refine .bind_expect (.scopedDue (.scoped outer)) hinp h (by simp) (fun hopen => ?_)
      (fun hopen => ?_) fun h => ?_
    · simp only [State.step]
      rfl
    · simp only [State.step, hopen]
      rfl
    refine (mirrors_nestedBy h rfl (hi.selector (.scoped outer))).bind fun s c' h => ?_
    refine .bind_expect (.selectorDone (.scoped s) outer) hinp h (by simp) (fun hclose => ?_)
      (fun hclose => ?_) fun h => .pure h
    · simp only [SelectorHole.resume]
      rfl
    · simp only [SelectorHole.resume, hclose]
      rfl
  · refine .bind_eat (by simp) (fun hslash => hsteps (some _) ?_) fun hslash => hsteps none ?_
    · exact h.next hinp (s := .stepDue ⟨true, []⟩ outer) (hslash.trans_ne (by simp))
        (by simp only [Parse.beginSelector, hslash]; rfl)
    · exact h.congr (by simp only [Parse.beginSelector]; rfl)

end MapExpr.Descent
