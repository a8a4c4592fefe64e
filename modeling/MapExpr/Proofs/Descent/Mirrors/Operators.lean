import MapExpr.Proofs.Descent.Mirrors.Operands
import MapExpr.Proofs.Descent.Progress

/-!
# Operators and whole expressions beside a reader

A level of a descent takes all of its operators before it ends, where the reader closes a level when
it sees an operator that binds less tightly. The operands of a level and the node made of them are
alike for all tokens that may come then.

* `Past`: the tokens that may come after a level;
* `MirrorsLevel`, `mirrors_product` to `mirrors_disjunction`: the levels;
* `mirrors_union`, `mirrors_expression`, `mirrors_main`: whole expressions;
* `main_ends`, `ofTokens_result`: a descent over tokens ends as the reader does.
-/

namespace MapExpr

open Parse (State Outcome ExprHole SelectorHole Chain Expectation Operator)

/-! ## Operators by level -/

namespace Kind

variable {k : Kind}

theorem relationalOp?_eq_some_iff {op : RelationalOp} :
    relationalOp? k = some op ↔ Operator.ofKind? k = some (.relational op) := by
  unfold relationalOp?
  split <;> simp_all

theorem additiveOp?_eq_some_iff {op : AdditiveOp} :
    additiveOp? k = some op ↔ Operator.ofKind? k = some (.additive op) := by
  unfold additiveOp?
  split <;> simp_all

theorem multiplicativeOp?_eq_some_iff {op : MultiplicativeOp} :
    multiplicativeOp? k = some op ↔ Operator.ofKind? k = some (.multiplicative op) := by
  unfold multiplicativeOp?
  split <;> simp_all

theorem isSome_relationalOp? (k : Kind) : (relationalOp? k).isSome = k.isRelational := by
  cases k <;> rfl

end Kind

namespace Descent

variable {inp : Input} {i : Inner} {final : Except ParseError State} {n : Nat} {c : Cursor}
  {chain : Chain} {hole : ExprHole} {first : Expr} {t : Token}

/-- The token is no operator that binds as tightly as `n`, or more tightly. -/
def Past (n : Nat) (t : Token) : Prop :=
  ∀ op, Operator.ofKind? t.kind = some op → op.strength < n

theorem Past.lower (h : Past (n + 1) t)
    (hn : ∀ op, Operator.ofKind? t.kind = some op → op.strength ≠ n) : Past n t :=
  fun op hop => Nat.lt_of_le_of_ne (Nat.le_of_lt_succ (h op hop)) (hn op hop)

theorem past_six (t : Token) : Past 6 t := by
  intro op _
  cases op <;> simp [Operator.strength]

theorem Past.five (h : Kind.multiplicativeOp? t.kind = none) : Past 5 t := by
  refine (past_six t).lower fun op hop => ?_
  cases op with
  | multiplicative op => simp [Kind.multiplicativeOp?_eq_some_iff.2 hop] at h
  | _ => simp [Operator.strength]

theorem Past.four (h : Past 5 t) (hadd : Kind.additiveOp? t.kind = none) : Past 4 t := by
  refine h.lower fun op hop => ?_
  cases op with
  | additive op => simp [Kind.additiveOp?_eq_some_iff.2 hop] at hadd
  | _ => simp [Operator.strength]

theorem Past.three (h : Past 4 t) (hrel : Kind.relationalOp? t.kind = none) : Past 3 t := by
  refine h.lower fun op hop => ?_
  cases op with
  | relational op => simp [Kind.relationalOp?_eq_some_iff.2 hop] at hrel
  | _ => simp [Operator.strength]

theorem Past.two (h : Past 3 t) (hand : t.kind ≠ .andWord) : Past 2 t := by
  refine h.lower fun op hop => ?_
  cases op with
  | and => exact absurd (Operator.kind_of_ofKind? hop) hand
  | _ => simp [Operator.strength]

theorem Past.one (h : Past 2 t) (hor : t.kind ≠ .orWord) : Past 1 t := by
  refine h.lower fun op hop => ?_
  cases op with
  | or => exact absurd (Operator.kind_of_ofKind? hop) hor
  | _ => simp [Operator.strength]

theorem Past.ofKind?_eq_none (h : Past 1 t) : Operator.ofKind? t.kind = none := by
  cases hop : Operator.ofKind? t.kind with
  | none => rfl
  | some op =>
    have hlt := h op hop
    cases op <;> simp [Operator.strength] at hlt

/-! ## Closed levels -/

theorem Expr.collapse_reverse (node : List Expr → Expr) (e f : Expr) (before : List Expr) :
    Expr.collapse node (e :: f :: before).reverse = node (e :: f :: before).reverse := by
  have hlength : 2 ≤ (e :: f :: before).reverse.length := by simp
  cases hes : (e :: f :: before).reverse with
  | nil => simp at hes
  | cons g es =>
    cases es with
    | nil => simp [hes] at hlength
    | cons h es => rfl

theorem alike_factors {before : List (Expr × MultiplicativeOp)}
    {rest : List (MultiplicativeOp × Expr)} {last : Expr} (hclear : chain.Clear .multiplicative)
    (hunroll : Chain.unroll before last [] = (first, rest)) :
    Chain.Alike 5 { chain with factors := before } last chain
      (if rest = [] then first else .multiplicative first rest) := by
  split
  · rename_i hrest
    subst hrest
    obtain ⟨rfl, rfl⟩ := Chain.eq_of_unroll_nil hunroll
    rw [hclear.factors_nil]
    exact .refl 5 _ _
  · rename_i hrest
    exact hclear.alike_multiplicative hunroll hrest

theorem alike_terms {before : List (Expr × AdditiveOp)} {rest : List (AdditiveOp × Expr)}
    {last : Expr} (hclear : chain.Clear .additive)
    (hunroll : Chain.unroll before last [] = (first, rest)) :
    Chain.Alike 4 { chain with terms := before } last chain
      (if rest = [] then first else .additive first rest) := by
  split
  · rename_i hrest
    subst hrest
    obtain ⟨rfl, rfl⟩ := Chain.eq_of_unroll_nil hunroll
    rw [hclear.terms_nil]
    exact .refl 4 _ _
  · rename_i hrest
    exact hclear.alike_additive hunroll hrest

theorem alike_conjuncts (hclear : chain.Clear .and) (e : Expr) (before : List Expr) :
    Chain.Alike 2 { chain with conjuncts := before } e chain
      (Expr.collapse .and (e :: before).reverse) := by
  cases before with
  | nil =>
    rw [hclear.conjuncts_nil]
    exact .refl 2 _ _
  | cons f before =>
    rw [Expr.collapse_reverse]
    exact hclear.alike_and before

theorem alike_disjuncts (hclear : chain.Clear .or) (e : Expr) (before : List Expr) :
    Chain.Alike 1 { chain with disjuncts := before } e chain
      (Expr.collapse .or (e :: before).reverse) := by
  cases before with
  | nil =>
    rw [hclear.disjuncts_nil]
    exact .refl 1 _ _
  | cons f before =>
    rw [Expr.collapse_reverse]
    exact hclear.alike_or before

/-! ## Levels -/

/-- An operand after others. -/
theorem mirrors_operand (hinp : inp.Marked) (hread : inp.Readable) (hi : Mirrored inp final i)
    (hne : chain ≠ .empty)
    (h : inp.Continues final hole.depth (Parse.beginOperand chain hole) c) :
    Mirrors final (fun e => inp.Continues final hole.depth (Parse.afterOperand e chain hole))
      (inp.primary i c) := by
  refine (mirrors_primary hinp hread hi h).imp fun e c' h => h.congr ?_
  cases e with
  | selector s =>
    have hempty : ¬ (chain.isEmpty = true ∧ (inp.tokenAt c'.pos).kind = .pipe) :=
      fun hempty => hne (Chain.eq_empty hempty.1)
    simp only [afterPrimary, SelectorHole.resume, if_neg hempty]
  | _ => rfl

/-- An operator is taken, and another operand is due. -/
theorem continues_operator (op : Operator) {next : Chain} {last : Expr} (hinp : inp.Marked)
    (h : inp.Continues final hole.depth (Parse.afterOperand last chain hole) c)
    (hop : Operator.ofKind? (inp.tokenAt c.pos).kind = some op)
    (hpush : (chain.push last op).value = some next) :
    inp.Continues final hole.depth (Parse.beginOperand next hole) c.next := by
  refine h.next hinp (s := .operandDue next hole) ?_ ?_
  · intro heof
    simp [heof, Operator.ofKind?] at hop
  · simp only [Parse.afterOperand, hop, Parse.Traced.value_bind, hpush]
    rfl

/-- What a level does beside the reader: its operators are taken, and the operands between them are
alike to the node that is made of them. -/
def MirrorsLevel (inp : Input) (final : Except ParseError State) (n : Nat) (chain : Chain)
    (hole : ExprHole) (r : Run Expr) : Prop :=
  Mirrors final (fun e c' => inp.Continues final hole.depth (Parse.afterOperand e chain hole) c' ∧
    Past n (inp.tokenAt c'.pos)) r

/-- A level that gathers its operands in a loop. While it runs, the reader holds what has been
gathered: the last operand, and the ones before it in its chain. -/
theorem mirrors_gathered {α β : Type} {loop : Loop} {test : Kind → Option β}
    {body : α → β → Descent α} {rounds : Nat} {a : α} (node : α → Expr)
    (held : α → Expr → Chain → Prop) (htest : test .eof = none)
    (hpast : ∀ {t : Token}, Past (n + 1) t → test t.kind = none → Past n t)
    (halike : ∀ {a last gathered}, held a last gathered →
      Chain.Alike n gathered last chain (node a))
    (hbody : ∀ {a b last gathered c}, held a last gathered →
      inp.Continues final hole.depth (Parse.afterOperand last gathered hole) c →
      test (inp.tokenAt c.pos).kind = some b →
      Mirrors final (fun a c' => ∃ last gathered, held a last gathered ∧
        inp.Continues final hole.depth (Parse.afterOperand last gathered hole) c' ∧
        Past (n + 1) (inp.tokenAt c'.pos)) (body a b c.next))
    (ha : held a first chain)
    (h : inp.Continues final hole.depth (Parse.afterOperand first chain hole) c)
    (hc : Past (n + 1) (inp.tokenAt c.pos)) :
    MirrorsLevel inp final n chain hole
      ((inp.whileAhead loop test body rounds a >>= fun a => pure (node a)) c) := by
  have hloop : Mirrors final (fun a c' => ∃ last gathered, held a last gathered ∧
        inp.Continues final hole.depth (Parse.afterOperand last gathered hole) c' ∧
        Past n (inp.tokenAt c'.pos)) (inp.whileAhead loop test body rounds a c) := by
    -- a round ends past the tighter level alone, and only the end of the loop is past this one
    refine .whileAhead (I := fun a c' => ∃ last gathered, held a last gathered ∧
      inp.Continues final hole.depth (Parse.afterOperand last gathered hole) c' ∧
      Past (n + 1) (inp.tokenAt c'.pos)) htest ?_ ?_ _ ⟨first, chain, ha, h, hc⟩
    · rintro a b c' ⟨last, gathered, ha, h, -⟩ - hb
      exact hbody ha h hb
    · rintro a c' ⟨last, gathered, ha, h, hc'⟩ hend
      exact ⟨last, gathered, ha, h, hpast hc' hend⟩
  refine hloop.bind ?_
  rintro a c' ⟨last, gathered, ha, h, hc'⟩
  exact .pure ⟨h.congr ((halike ha).afterOperand_eq hc'), hc'⟩

theorem mirrors_product (hinp : inp.Marked) (hread : inp.Readable) (hi : Mirrored inp final i)
    (hclear : chain.Clear .multiplicative)
    (h : inp.Continues final hole.depth (Parse.afterOperand first chain hole) c) :
    MirrorsLevel inp final 5 chain hole (inp.product i first c) := by
  refine .activate _ (mirrors_gathered _ (fun rest last gathered => ∃ before,
    gathered = { chain with factors := before } ∧ Chain.unroll before last [] = (first, rest))
    rfl (fun _ hend => .five hend) ?_ ?_ ⟨[], hclear.factors_nil.symm, rfl⟩ h (past_six _))
  · rintro rest last _ ⟨before, rfl, hunroll⟩
    exact alike_factors hclear hunroll
  · rintro rest op last _ c' ⟨before, rfl, hunroll⟩ h hop
    have h := continues_operator (.multiplicative op) hinp h
      (Kind.multiplicativeOp?_eq_some_iff.1 hop) rfl
    refine (mirrors_operand hinp hread hi ?_ h).bind fun e c'' h => .pure ?_
    · exact fun hempty => List.cons_ne_nil _ _ (congrArg Chain.factors hempty)
    · refine ⟨e, _, ⟨(last, op) :: before, rfl, ?_⟩, h, past_six _⟩
      rw [Chain.unroll_cons, hunroll]

theorem mirrors_sum (hinp : inp.Marked) (hread : inp.Readable) (hi : Mirrored inp final i)
    (hclear : chain.Clear .additive)
    (h : inp.Continues final hole.depth (Parse.afterOperand first chain hole) c) :
    MirrorsLevel inp final 4 chain hole (inp.sum i first c) := by
  refine .activate _ ((mirrors_product hinp hread hi (hclear.mono (by decide)) h).bind ?_)
  rintro first c₁ ⟨h, hpast⟩
  refine mirrors_gathered _ (fun rest last gathered => ∃ before,
    gathered = { chain with terms := before } ∧ Chain.unroll before last [] = (first, rest))
    rfl .four ?_ ?_ ⟨[], hclear.terms_nil.symm, rfl⟩ h hpast
  · rintro rest last _ ⟨before, rfl, hunroll⟩
    exact alike_terms hclear hunroll
  · rintro rest op last _ c' ⟨before, rfl, hunroll⟩ h hop
    have h := continues_operator (.additive op) hinp h (Kind.additiveOp?_eq_some_iff.1 hop)
      (hclear.push_additive before op)
    refine (mirrors_operand hinp hread hi ?_ h).bind fun e c₂ h =>
      (mirrors_product hinp hread hi (hclear.terms_multiplicative _) h).bind fun e c₃ h => .pure ?_
    · exact fun hempty => List.cons_ne_nil _ _ (congrArg Chain.terms hempty)
    · refine ⟨e, _, ⟨(last, op) :: before, rfl, ?_⟩, h⟩
      rw [Chain.unroll_cons, hunroll]

theorem mirrors_comparison (hinp : inp.Marked) (hread : inp.Readable) (hi : Mirrored inp final i)
    (hclear : chain.Clear .comparison)
    (h : inp.Continues final hole.depth (Parse.afterOperand first chain hole) c) :
    MirrorsLevel inp final 3 chain hole (inp.comparison i first c) := by
  refine .activate _ ((mirrors_sum hinp hread hi (hclear.mono (by decide)) h).bind ?_)
  rintro left c₁ ⟨h, hpast⟩
  rw [Input.bind_peek]
  cases hop : Kind.relationalOp? (inp.tokenAt c₁.pos).kind with
  | none => exact .pure ⟨h, hpast.three hop⟩
  | some op =>
    have hop := Kind.relationalOp?_eq_some_iff.1 hop
    have hne : (inp.tokenAt c₁.pos).kind ≠ .eof := fun heof => by
      simp [heof, Operator.ofKind?] at hop
    have h := continues_operator (.relational op) hinp h hop (hclear.push_relational op)
    show Mirrors final _ ((inp.advance >>= _) c₁)
    rw [Input.bind_advance _ hne]
    refine (mirrors_operand hinp hread hi ?_ h).bind fun e c₂ h =>
      (mirrors_sum hinp hread hi (hclear.compared_additive _) h).bind ?_
    · exact fun hempty => Option.some_ne_none _ (congrArg Chain.compared hempty)
    rintro right c₃ ⟨h, hpast⟩
    rw [Input.bind_peek, ← Kind.isSome_relationalOp?]
    split
    · rename_i hsecond
      obtain ⟨op', hop'⟩ := Option.isSome_iff_exists.1 hsecond
      refine .unexpected _ (h.eq_error ?_)
      simp only [Parse.afterOperand, Kind.relationalOp?_eq_some_iff.1 hop', Chain.push,
        Parse.Traced.value_bind]
      rfl
    · rename_i hsecond
      have hpast := hpast.three (Option.not_isSome_iff_eq_none.1 hsecond)
      exact .pure ⟨h.congr ((hclear.alike_comparison op).afterOperand_eq hpast), hpast⟩

theorem mirrors_conjunction (hinp : inp.Marked) (hread : inp.Readable) (hi : Mirrored inp final i)
    (hclear : chain.Clear .and)
    (h : inp.Continues final hole.depth (Parse.afterOperand first chain hole) c) :
    MirrorsLevel inp final 2 chain hole (inp.conjunction i first c) := by
  refine .activate _ ((mirrors_comparison hinp hread hi (hclear.mono (by decide)) h).bind ?_)
  rintro first c₁ ⟨h, hpast⟩
  refine mirrors_gathered _ (fun es last gathered => ∃ before,
    gathered = { chain with conjuncts := before } ∧ es = (last :: before).reverse)
    rfl (fun hpast hend => hpast.two (isExactly_eq_none hend)) ?_ ?_
    ⟨[], hclear.conjuncts_nil.symm, rfl⟩ h hpast
  · rintro _ last _ ⟨before, rfl, rfl⟩
    exact alike_conjuncts hclear last before
  · rintro _ _ last _ c' ⟨before, rfl, rfl⟩ h hop
    have h := continues_operator .and hinp h (by rw [isExactly_eq_some hop]; rfl)
      (hclear.push_and before)
    refine (mirrors_operand hinp hread hi ?_ h).bind fun e c₂ h =>
      (mirrors_comparison hinp hread hi (hclear.conjuncts_comparison _) h).bind fun e c₃ h =>
        .pure ?_
    · exact fun hempty => List.cons_ne_nil _ _ (congrArg Chain.conjuncts hempty)
    · exact ⟨e, _, ⟨last :: before, rfl, by simp⟩, h⟩

theorem mirrors_disjunction (hinp : inp.Marked) (hread : inp.Readable) (hi : Mirrored inp final i)
    (hclear : chain.Clear .or)
    (h : inp.Continues final hole.depth (Parse.afterOperand first chain hole) c) :
    MirrorsLevel inp final 1 chain hole (inp.disjunction i first c) := by
  refine .activate _ ((mirrors_conjunction hinp hread hi (hclear.mono (by decide)) h).bind ?_)
  rintro first c₁ ⟨h, hpast⟩
  refine mirrors_gathered _ (fun es last gathered => ∃ before,
    gathered = { chain with disjuncts := before } ∧ es = (last :: before).reverse)
    rfl (fun hpast hend => hpast.one (isExactly_eq_none hend)) ?_ ?_
    ⟨[], hclear.disjuncts_nil.symm, rfl⟩ h hpast
  · rintro _ last _ ⟨before, rfl, rfl⟩
    exact alike_disjuncts hclear last before
  · rintro _ _ last _ c' ⟨before, rfl, rfl⟩ h hop
    have h := continues_operator .or hinp h (by rw [isExactly_eq_some hop]; rfl)
      (hclear.push_or before)
    refine (mirrors_operand hinp hread hi ?_ h).bind fun e c₂ h =>
      (mirrors_conjunction hinp hread hi (hclear.disjuncts_and _) h).bind fun e c₃ h =>
        .pure ?_
    · exact fun hempty => List.cons_ne_nil _ _ (congrArg Chain.disjuncts hempty)
    · exact ⟨e, _, ⟨last :: before, rfl, by simp⟩, h⟩

/-! ## Whole expressions -/

theorem mirrors_union {s : Selector} (hinp : inp.Marked) (hi : Mirrored inp final i)
    (h : inp.Continues final hole.depth (SelectorHole.resume (.member [] hole) s) c) :
    Mirrors final (fun e => inp.Continues final hole.depth (hole.resume e)) (inp.union i s c) := by
  have hloop : Mirrors final (fun ss c' => inp.Continues final hole.depth
        (hole.resume (.union ss)) c')
      (inp.whileAhead .members (Kind.isExactly .pipe) (inp.furtherMember i) i.rounds [s] c) := by
    refine .whileAhead (I := fun ss c' => ∃ last before, ss = (last :: before).reverse ∧
      inp.Continues final hole.depth (SelectorHole.resume (.member before hole) last) c')
      rfl ?_ ?_ _ ⟨s, [], rfl, h⟩
    · rintro _ _ c' ⟨last, before, rfl, h⟩ hne hpipe
      have hpipe := isExactly_eq_some hpipe
      have h : inp.Continues final (SelectorHole.member (last :: before) hole).depth
          (Parse.beginSelector (.member (last :: before) hole)) c'.next :=
        h.next hinp (s := .selectorDue (.member (last :: before) hole)) hne
          (by simp only [SelectorHole.resume, if_pos hpipe]; rfl)
      exact (mirrors_selector hinp hi h).bind fun t c'' h =>
        .pure ⟨t, last :: before, by simp, h⟩
    · rintro _ c' ⟨last, before, rfl, h⟩ hpipe
      refine h.congr ?_
      simp only [SelectorHole.resume, if_neg (isExactly_eq_none hpipe)]
      rfl
  exact .activate _ (hloop.bind fun ss c' h => .pure h)

theorem mirrors_expression (hinp : inp.Marked) (hread : inp.Readable) (hi : Mirrored inp final i)
    (h : inp.Continues final hole.depth (Parse.beginOperand .empty hole) c) :
    Mirrors final (fun e => inp.Continues final hole.depth (hole.resume e))
      (inp.expression i c) := by
  have hwhole : ∀ {e : Expr} {c' : Cursor},
      inp.Continues final hole.depth (Parse.afterOperand e .empty hole) c' →
      Mirrors final (fun e => inp.Continues final hole.depth (hole.resume e))
        (inp.disjunction i e c') := by
    intro e c' h
    refine (mirrors_disjunction hinp hread hi (Chain.clear_empty .or) h).imp
      fun e c'' h => h.1.congr ?_
    simp only [Parse.afterOperand, h.2.ofKind?_eq_none,
      (Chain.clear_empty .or).disjunction_eq]
    rfl
  refine .activate _ ((mirrors_primary hinp hread hi h).bind fun e c' h => ?_)
  cases e with
  | selector s =>
    simp only [Input.bind_peek]
    split
    · rename_i hpipe
      refine mirrors_union hinp hi (h.congr ?_)
      simp only [afterPrimary, SelectorHole.resume, hpipe]
      rfl
    · rename_i hpipe
      refine hwhole (h.congr ?_)
      simp only [afterPrimary, SelectorHole.resume, hpipe]
      rfl
  | _ => exact hwhole h

theorem mirrored_inner (hinp : inp.Marked) (hread : inp.Readable) (final : Except ParseError State)
    (n : Nat) : Mirrored inp final (inp.inner n) := by
  induction n with
  | zero => exact ⟨fun _ _ _ => .exhausted, fun _ _ _ => .exhausted⟩
  | succ n ih =>
    exact ⟨fun _ _ => mirrors_expression hinp hread ih, fun _ _ => mirrors_selector hinp ih⟩

/-- A whole list of tokens is an expression for both, or has the same fault for both. -/
theorem mirrors_main (hinp : inp.Marked) (hread : inp.Readable) (hi : Mirrored inp final i)
    (h : inp.Continues final 0 (State.step inp.limit Parse.start) c) :
    Mirrors final (fun parsed _ => final = .ok (.accepted parsed)) (inp.main i c) := by
  refine .activate _ ((mirrors_nestedBy h rfl
    fun _ => mirrors_expression hinp hread hi).bind fun e c' h => ?_)
  by_cases heof : (inp.tokenAt c'.pos).kind = .eof
  · rw [Input.bind_expect_eof _ heof]
    have hdrop : inp.tokens.drop (c'.pos + 1) = [] := by
      have hlast : inp.last ≤ c'.pos := Nat.le_of_not_lt fun hlt => hinp.kind_of_lt hlt heof
      exact List.drop_eq_nil_of_le (by rw [Input.last] at hlast; omega)
    refine .pure ?_
    rw [← h.goes_eq, Input.goes, hdrop]
    simp only [ExprHole.resume, heof]
    rfl
  · rw [Input.bind_expect_of_ne _ heof]
    refine .fault (h.eq_error ?_)
    simp only [ExprHole.resume]
    rfl

/-- With a level of recursion for each token, a descent ends as the reader does. -/
theorem main_ends (hinp : inp.Marked) (hread : inp.Readable) :
    (∃ parsed, (inp.main (inp.inner inp.tokens.length) ⟨0, 0⟩).result = .ok parsed ∧
      Parse.start.run inp.limit inp.tokens = .ok (.accepted parsed)) ∨
    ∃ e, (inp.main (inp.inner inp.tokens.length) ⟨0, 0⟩).result = .error (.fault e) ∧
      Parse.start.run inp.limit inp.tokens = .error e := by
  have hmirrors := mirrors_main (c := ⟨0, 0⟩) hinp hread
    (mirrored_inner hinp hread (Parse.start.run inp.limit inp.tokens) inp.tokens.length)
    ⟨hinp.goes_step (Nat.zero_le _) _, rfl⟩
  cases hresult : (inp.main (inp.inner inp.tokens.length) ⟨0, 0⟩).result with
  | ok parsed => exact .inl ⟨parsed, rfl, hmirrors.of_ok hresult⟩
  | error why =>
    have hend := hmirrors.of_error hresult
    cases why with
    | fault e => exact .inr ⟨e, rfl, hend⟩
    | exhausted => exact absurd hresult (called_start hinp).ne_exhausted
    | badCut | fallback _ => exact hend.elim

/-- A descent over tokens ends as the reader of these tokens does. -/
theorem ofTokens_result {settings : Settings} {tokens : List Token} {marker : Token}
    (hinp : Input.Marked ⟨tokens, marker, settings.maxDepth⟩)
    (hread : ∀ t ∈ tokens, t.IsReadable) :
    (ofTokens settings tokens).result =
      (Parse.ofTokens settings tokens).value.mapError .fault := by
  simp only [ofTokens, hinp.getLast?_tokens]
  rcases main_ends hinp hread with ⟨parsed, hresult, hrun⟩ | ⟨e, hresult, hrun⟩
  · rw [hresult, Parse.ofTokens_eq_ok_iff.2 hrun]
    rfl
  · rw [hresult, Parse.ofTokens_eq_error hrun]
    rfl

end Descent

end MapExpr
