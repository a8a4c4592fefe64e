import MapExpr.Proofs.Grammar.Reads.Basic

/-!
# Reading operands

The rules of the grammar for operators, primaries and whole expressions, each as a lemma about
runs. An operand on a level leaves the levels below it as they are, and an expression in brackets
begins with no operand before it.

* `reads_nextDisjunct` to `reads_nextFactor`: a further operand of a chain;
* `reads_or` to `reads_multiplicative`: a chain of two or more operands is a node;
* `leads_call`, `leads_expressionDue`: what opens a call, and an expression in brackets;
* `head_of_reads`, `second_of_reads`: what an expression cannot begin with.
-/

namespace MapExpr

open Grammar (Level)
open Word (optional)
open Parse

namespace Grammar.Category

variable {ws us : List Word} {m n : Nat} {p q r x : String} {e f : Expr} {es : List Expr}
  {s : Selector} {ss : List Selector}

/-! ## Chains of operators -/

theorem reads_lift {ℓ k : Level} (hk : ℓ.strength ≤ k.strength)
    (h : Reads (.phrase k) ws e n) : Reads (.phrase ℓ) ws e n :=
  fun c hole hc => (h c hole (hc.mono hk)).mono hk

theorem reads_firstDisjunct (h : Reads (.phrase .and) ws e n) : Reads .disjuncts ws [e] n := by
  intro c hole hc
  exact ⟨e, [], rfl, hc.disjuncts_nil.symm ▸ h c hole (hc.mono (by decide))⟩

theorem reads_nextDisjunct (hes : Reads .disjuncts ws es m) (h : Reads (.phrase .and) us e n) :
    Reads .disjuncts (ws ++ ⟨.orWord, p⟩ :: us) (es ++ [e]) (max m n) := by
  intro c hole hc
  obtain ⟨f, before, rfl, hws⟩ := hes c hole hc
  refine ⟨e, f :: before, by simp, ?_⟩
  exact hws.join (takes_operator rfl (hc.push_or before)) (h _ hole (hc.disjuncts_and _))
    (show 1 < 2 by decide) (by decide)

theorem reads_or (h : Reads .disjuncts ws es n) (hes : 2 ≤ es.length) :
    Reads (.phrase .or) ws (.or es) n := by
  intro c hole hc
  obtain ⟨e, before, rfl, hws⟩ := h c hole hc
  obtain ⟨f, before, rfl⟩ : ∃ f es, before = f :: es :=
    List.exists_cons_of_ne_nil (by rintro rfl; simp at hes)
  exact hws.agree (fun limit => (hc.alike_or before).agree) (by decide)

theorem reads_firstConjunct (h : Reads (.phrase .comparison) ws e n) :
    Reads .conjuncts ws [e] n := by
  intro c hole hc
  exact ⟨e, [], rfl, hc.conjuncts_nil.symm ▸ h c hole (hc.mono (by decide))⟩

theorem reads_nextConjunct (hes : Reads .conjuncts ws es m)
    (h : Reads (.phrase .comparison) us e n) :
    Reads .conjuncts (ws ++ ⟨.andWord, p⟩ :: us) (es ++ [e]) (max m n) := by
  intro c hole hc
  obtain ⟨f, before, rfl, hws⟩ := hes c hole hc
  refine ⟨e, f :: before, by simp, ?_⟩
  exact hws.join (takes_operator rfl (hc.push_and before)) (h _ hole (hc.conjuncts_comparison _))
    (show 2 < 3 by decide) (by decide)

theorem reads_and (h : Reads .conjuncts ws es n) (hes : 2 ≤ es.length) :
    Reads (.phrase .and) ws (.and es) n := by
  intro c hole hc
  obtain ⟨e, before, rfl, hws⟩ := h c hole hc
  obtain ⟨f, before, rfl⟩ : ∃ f es, before = f :: es :=
    List.exists_cons_of_ne_nil (by rintro rfl; simp at hes)
  exact hws.agree (fun limit => (hc.alike_and before).agree) (by decide)

theorem reads_comparison {op : RelationalOp} (he : Reads (.phrase .additive) ws e m)
    (hf : Reads (.phrase .additive) us f n) :
    Reads (.phrase .comparison) (ws ++ ⟨op.kind, p⟩ :: us) (.comparison op e f) (max m n) := by
  intro c hole hc
  have hclear := hc.mono (k := .additive) (by decide)
  have hrun : Leads hole.depth (max m n) 4 (.operandDue c hole) (ws ++ ⟨op.kind, p⟩ :: us)
      (.operandDone f { c with compared := some (e, op) } hole) :=
    (he c hole hclear).join
      (takes_operator (Operator.ofKind?_relational op) (hc.push_relational op))
      (hf _ hole (hc.compared_additive _)) (by simp [Level.strength]) (by decide)
  exact hrun.agree (fun limit => (hc.alike_comparison op).agree) (by decide)

theorem reads_firstTerm (h : Reads (.phrase .multiplicative) ws e n) :
    Reads .terms ws (e, []) n := by
  intro c hole hc
  exact ⟨e, [], rfl, hc.terms_nil.symm ▸ h c hole (hc.mono (by decide))⟩

theorem reads_nextTerm {es : List (AdditiveOp × Expr)} {op : AdditiveOp}
    (hes : Reads .terms ws (e, es) m) (h : Reads (.phrase .multiplicative) us f n) :
    Reads .terms (ws ++ ⟨op.kind, p⟩ :: us) (e, es ++ [(op, f)]) (max m n) := by
  intro c hole hc
  obtain ⟨g, before, hunroll, hws⟩ := hes c hole hc
  have hpush := hc.push_additive (e := g) before op
  refine ⟨f, (g, op) :: before, ?_, ?_⟩
  · exact (Chain.unroll_append before g [] [(op, f)]).trans (by rw [hunroll])
  · exact hws.join (takes_operator (Operator.ofKind?_additive op) hpush)
      (h _ hole (hc.terms_multiplicative _)) (by simp) (by decide)

theorem reads_additive {es : List (AdditiveOp × Expr)} (h : Reads .terms ws (e, es) n)
    (hes : es ≠ []) : Reads (.phrase .additive) ws (.additive e es) n := by
  intro c hole hc
  obtain ⟨f, before, hunroll, hws⟩ := h c hole hc
  exact hws.agree (fun limit => (hc.alike_additive hunroll hes).agree) (by decide)

theorem reads_firstFactor (h : Reads (.phrase .primary) ws e n) : Reads .factors ws (e, []) n := by
  intro c hole hc
  exact ⟨e, [], rfl, hc.factors_nil.symm ▸ h c hole (hc.mono (by decide))⟩

theorem reads_nextFactor {es : List (MultiplicativeOp × Expr)} {op : MultiplicativeOp}
    (hes : Reads .factors ws (e, es) m) (h : Reads (.phrase .primary) us f n) :
    Reads .factors (ws ++ ⟨op.kind, p⟩ :: us) (e, es ++ [(op, f)]) (max m n) := by
  intro c hole hc
  obtain ⟨g, before, hunroll, hws⟩ := hes c hole hc
  refine ⟨f, (g, op) :: before, ?_, ?_⟩
  · exact (Chain.unroll_append before g [] [(op, f)]).trans (by rw [hunroll])
  · exact hws.join (takes_operator (Operator.ofKind?_multiplicative op) rfl)
      (h _ hole (Chain.clear_primary _)) (by simp) (by decide)

theorem reads_multiplicative {es : List (MultiplicativeOp × Expr)}
    (h : Reads .factors ws (e, es) n) (hes : es ≠ []) :
    Reads (.phrase .multiplicative) ws (.multiplicative e es) n := by
  intro c hole hc
  obtain ⟨f, before, hunroll, hws⟩ := h c hole hc
  exact hws.agree (fun limit => (hc.alike_multiplicative hunroll hes).agree) (by decide)

/-! ## Whole expressions -/

theorem reads_whole (h : Reads (.phrase .or) ws e n) : Reads .expression ws e n :=
  fun hole => h .empty hole (Chain.clear_empty _)

theorem reads_union (h : Reads .members ws ss n) (hss : 2 ≤ ss.length) :
    Reads .expression ws (.union ss) n := by
  intro hole
  obtain ⟨s₁, hws, -, hagree⟩ := h hole
  exact hws.agree (hagree hss) (by decide)

theorem reads_firstMember (h : Reads .selector ws s n) : Reads .members ws [s] n := by
  intro hole
  refine ⟨.selectorDone s (.operand .empty hole), h _ _ (.operand .empty hole), ?_, ?_⟩
  · exact fun p => fun _ _ => rfl
  · exact fun hss => absurd hss (by simp)

theorem reads_nextMember (hss : Reads .members ws ss m) (h : Reads .selector us s n) :
    Reads .members (ws ++ ⟨.pipe, p⟩ :: us) (ss ++ [s]) (max m n) := by
  intro hole
  obtain ⟨s₁, hws, htakes, -⟩ := hss hole
  refine ⟨.selectorDone s (.member ss.reverse hole), ?_, fun p => fun _ _ => ?_, ?_⟩
  · exact hws.join (htakes p) (h _ (.member ss.reverse hole) (.due _)) (show 6 < 7 by decide)
      (by decide)
  · simp only [State.step, SelectorHole.resume, List.reverse_append, List.reverse_singleton]
    rfl
  · intro _ limit t ht
    have hpipe : t.kind ≠ .pipe := Kind.ne_of_joins_lt ht (by decide)
    simp only [State.step, SelectorHole.resume, if_neg hpipe, afterOperand,
      Operator.ofKind?_eq_none ht, (Chain.clear_empty .or).disjunction_eq, Traced.value_bind,
      Traced.value_note, Traced.value_pure, List.reverse_cons, List.reverse_reverse]

/-! ## Primaries -/

theorem reads_number {d : Decimal} (h : Decimal.ofText? x = some d) :
    Reads (.phrase .primary) [⟨.number, x⟩] (.constant (.number (.ofDecimal d))) 0 := by
  refine fun c hole _ => .word fun _ _ => ?_
  simp only [State.step, beginOperand, beginConstant, constant?, h]
  rfl

theorem reads_system : Reads (.phrase .primary) [⟨.systemWord, p⟩] (.constant .system) 0 :=
  fun _ _ _ => .word fun _ _ => rfl

theorem reads_literal :
    Reads (.phrase .primary) [⟨.literal, x⟩] (.constant (.literal (unquoted x))) 0 :=
  fun _ _ _ => .word fun _ _ => rfl

theorem reads_variableRef :
    Reads (.phrase .primary) [⟨.dollar, p⟩, ⟨.identifier, x⟩] (.variableRef x) 0 := by
  intro c hole _
  have hrun : Leads hole.depth 0 6 (.operandDue c hole) [⟨.dollar, p⟩, ⟨.identifier, x⟩]
      (.dollarName x c hole) :=
    .cons (fun _ _ => rfl) (.word fun _ _ => rfl)
  refine hrun.agree (fun limit t ht => ?_) (by decide)
  have hparen : t.kind ≠ .leftParen := Kind.ne_of_joins_lt ht (by decide)
  simp only [State.step]

/-- A name and an opening parenthesis, perhaps after a dollar, lead into a call. -/
theorem leads_call {withDollar : Bool} {b k : Nat} {c : Chain} {hole : ExprHole} {s' : State}
    (h : Leads b n k (.callOpened withDollar x c hole) ws s') :
    Leads b n k (.operandDue c hole)
      (optional withDollar ⟨.dollar, p⟩ ++ ⟨.identifier, x⟩ :: ⟨.leftParen, q⟩ :: ws) s' := by
  cases withDollar with
  | true =>
    have hparen : Leads b n k (.dollarName x c hole) (⟨.leftParen, q⟩ :: ws) s' :=
      .cons (fun _ _ => rfl) h
    have hname : Leads b n k (.dollar c hole) (⟨.identifier, x⟩ :: ⟨.leftParen, q⟩ :: ws) s' :=
      .cons (fun _ _ => rfl) hparen
    exact .cons (fun _ _ => rfl) hname
  | false =>
    have hparen : Leads b n k (.leadingName x c hole) (⟨.leftParen, q⟩ :: ws) s' :=
      .cons (fun _ _ => rfl) h
    exact .cons (fun _ _ => rfl) hparen

theorem reads_callEmpty {withDollar : Bool} : Reads (.phrase .primary)
    (optional withDollar ⟨.dollar, p⟩ ++ [⟨.identifier, x⟩, ⟨.leftParen, q⟩, ⟨.rightParen, r⟩])
    (.call (.mk withDollar x [])) 0 :=
  fun _ _ _ => leads_call (.word fun _ _ => rfl)

theorem reads_call {withDollar : Bool} (h : Reads .arguments ws es n) : Reads (.phrase .primary)
    (optional withDollar ⟨.dollar, p⟩ ++
      ⟨.identifier, x⟩ :: ⟨.leftParen, q⟩ :: (ws ++ [⟨.rightParen, r⟩]))
    (.call (.mk withDollar x es)) n := by
  intro c hole _
  obtain ⟨e, before, rfl, hws⟩ := h withDollar x c hole
  exact leads_call (hws.snoc (fun _ _ => rfl) (show 0 < 1 by decide))

/-! ## Expressions in brackets -/

/-- The words of an expression are taken without a fault at the root. -/
theorem run_of_reads (h : Reads .expression ws e n) : ∃ limit s₁,
    (State.operandDue .empty .root).run limit (ws.map Word.token) = .ok s₁ ∧
      Agree limit 1 s₁ (.operandDone e .empty .root) := by
  obtain ⟨s₁, hrun⟩ := (h .root).reads (Nat.le_refl _) (Word.map_word_token ws)
  exact ⟨_, s₁, hrun⟩

theorem ne_nil_of_reads (h : Reads .expression ws e n) : ws ≠ [] := by
  rintro rfl
  obtain ⟨limit, s₁, hrun, hagree⟩ := run_of_reads h
  obtain rfl := Except.ok.inj hrun
  cases hagree (.eof 0) (by decide)

/-- An expression does not begin with a closing bracket. -/
theorem head_of_reads {w : Word} (h : Reads .expression (w :: ws) e n) :
    w.kind ≠ .rightParen ∧ w.kind ≠ .rightBracket := by
  obtain ⟨limit, s₁, hrun, -⟩ := run_of_reads h
  rw [List.map_cons, State.run_cons] at hrun
  obtain ⟨kind, text⟩ := w
  constructor <;>
  · rintro rfl
    cases hrun

/-- An expression does not go on with a closing bracket after a number. -/
theorem second_of_reads {v w : Word} (h : Reads .expression (w :: v :: ws) e n)
    (hw : w.kind = .number) : v.kind ≠ .rightBracket := by
  obtain ⟨limit, s₁, hrun, -⟩ := run_of_reads h
  rw [List.map_cons, List.map_cons, State.run_cons] at hrun
  obtain ⟨kind, text⟩ := w
  obtain rfl : kind = .number := hw
  obtain ⟨kind, text'⟩ := v
  rintro rfl
  simp only [State.step, beginOperand, beginConstant, Word.token] at hrun
  split at hrun
  · rw [Outcome.bind_go, State.run_cons] at hrun
    cases hrun
  · cases hrun

theorem leads_expressionDue {inner : ExprHole} {b d : Nat} (h : Reads .expression ws e n)
    (hdepth : inner.depth = b + d) :
    Leads b (n + d) 1 (.expressionDue inner) ws (.operandDone e .empty inner) := by
  have hinner := h inner
  rw [hdepth] at hinner
  refine hinner.enter (ne_nil_of_reads h) fun limit t => ?_
  rw [← hdepth]
  rfl

theorem reads_group (h : Reads .expression ws e n) :
    Reads (.phrase .primary) (⟨.leftParen, p⟩ :: (ws ++ [⟨.rightParen, q⟩])) (.group e) (n + 1) :=
  fun c hole _ => .cons (fun _ _ => rfl)
    ((leads_expressionDue (d := 1) h rfl).snoc (fun _ _ => rfl) (show 0 < 1 by decide))

theorem reads_firstArgument (h : Reads .expression ws e n) : Reads .arguments ws [e] (n + 1) := by
  intro withDollar x c hole
  refine ⟨e, [], rfl, (leads_expressionDue (d := 1) h rfl).of_run_eq fun {limit ts} hts => ?_⟩
  obtain ⟨t, us, rfl⟩ := List.exists_cons_of_ne_nil (l := ts)
    fun hnil => ne_nil_of_reads h (by simp [← hts, hnil])
  subst hts
  have hparen : t.kind ≠ .rightParen := (head_of_reads h).1
  rw [State.run_cons, State.run_cons]
  simp only [State.step]

theorem reads_nextArgument (hes : Reads .arguments ws es m) (h : Reads .expression us e n) :
    Reads .arguments (ws ++ ⟨.comma, p⟩ :: us) (es ++ [e]) (max m (n + 1)) := by
  intro withDollar x c hole
  obtain ⟨f, before, rfl, hws⟩ := hes withDollar x c hole
  refine ⟨e, f :: before, by simp, ?_⟩
  exact hws.join (fun _ _ => rfl) (leads_expressionDue (d := 1) h rfl) (show 0 < 1 by decide)
    (by decide)

end Grammar.Category

end MapExpr
