import MapExpr.Proofs.Descent.Parts

/-!
# Progress

Every rule, called anywhere up to the end marker, is one sound call: it takes what its kind of rule
takes at least, never goes behind the marker, leaves all levels that it enters, and calls a rule
that it may not call where it begins only after it has taken a token.

* `Ready`: what a rule needs of the expressions and selectors in brackets. They only come after a
  bracket has been taken, so they are needed behind the place of the rule alone;
* `called_constant` to `called_main`: the rules;
* `ready_inner`, `called_start`: as many levels of recursion as there are tokens are enough;
* `Request.called`: any rule called on its own.
-/

namespace MapExpr.Descent

variable {inp : Input} {i : Inner} {c : Cursor} {p q : Nat}

/-- Expressions and selectors that begin behind the place `p` are sound calls, and a loop that
begins there may take all the tokens to come. -/
structure Ready (inp : Input) (i : Inner) (p : Nat) : Prop where
  rounds : inp.last - p < i.rounds
  expression : ∀ c : Cursor, p < c.pos → c.pos ≤ inp.last →
    Called inp .expression c (i.expression c)
  selector : ∀ c : Cursor, p < c.pos → c.pos ≤ inp.last → Called inp .selector c (i.selector c)

theorem Ready.mono (h : Ready inp i p) (hpq : p ≤ q) : Ready inp i q where
  rounds := Nat.lt_of_le_of_lt (by omega) h.rounds
  expression c hc := h.expression c (Nat.lt_of_le_of_lt hpq hc)
  selector c hc := h.selector c (Nat.lt_of_le_of_lt hpq hc)

/-! ## Names, indices and constants -/

theorem called_constant (hinp : inp.Marked) (hc : c.pos ≤ inp.last) :
    Called inp .constant c (inp.constant c) := by
  refine called_activate (by simp) ?_
  by_cases heof : (inp.tokenAt c.pos).kind = .eof
  · rw [Input.bind_advance_of_eof _ heof, heof]
    exact .stop (.refl hc) (by simp)
  · refine .bind_advance hinp (.refl hc) heof fun hnext => ?_
    cases (inp.tokenAt c.pos).kind with
    | number =>
      cases Decimal.ofText? (inp.tokenAt c.pos).text with
      | some d => exact .pure _ hnext (Nat.le_succ _)
      | none => exact .stop (hnext.mono (Nat.le_succ _)) (by simp)
    | systemWord => exact .pure _ hnext (Nat.le_succ _)
    | literal =>
      cases Span.slice? (inp.tokenAt c.pos).text _ with
      | some contents => exact .pure _ hnext (Nat.le_succ _)
      | none => exact .stop (hnext.mono (Nat.le_succ _)) (by simp)
    | _ => exact .stop (hnext.mono (Nat.le_succ _)) (by simp)

theorem partOf_qualifier (hinp : inp.Marked) (hc : c.pos ≤ inp.last) {rule : Rule} :
    PartOf inp rule c c.pos c.pos (inp.qualifier c) := by
  rw [Input.qualifier, Input.bind_peek, Input.bind_peekNth]
  split
  · rename_i hahead
    refine .bind_advance hinp (.refl hc) (by simp [hahead.1]) fun hfirst => ?_
    have hfirst := hfirst.mono (Nat.le_succ _)
    refine .bind_advance hinp hfirst (by simp [hahead.2]) fun hsecond => ?_
    exact .pure _ (hsecond.mono (Nat.le_succ _)) (Nat.le_refl _)
  · exact .pure _ (.refl hc) (Nat.le_refl _)

theorem called_nodeName (hinp : inp.Marked) (hc : c.pos ≤ inp.last) :
    Called inp .nodeName c (inp.nodeName c) := by
  refine called_activate (by simp) (.bind (partOf_qualifier hinp hc) fun q _ hc' => ?_)
  rw [Input.bind_peek]
  cases hkind : (inp.tokenAt (inp.qualifier c).cursor.pos).kind with
  | identifier =>
    refine .bind_advance hinp hc' (by simp [hkind]) fun hnext => ?_
    exact .pure _ hnext (Nat.le_succ _)
  | star =>
    refine .bind_advance hinp hc' (by simp [hkind]) fun hnext => ?_
    exact .pure _ hnext (Nat.le_succ _)
  | _ => exact .unexpected hc' _

theorem called_index (hinp : inp.Marked) (hc : c.pos ≤ inp.last) :
    Called inp .index c (inp.index c) := by
  refine called_activate (by simp) ?_
  refine .bind_expect hinp (.refl hc) (by simp) fun _ hopen => ?_
  have hopen := hopen.mono (Nat.le_succ _)
  refine .bind_expect hinp hopen (by simp) fun _ hnumber => ?_
  have hnumber := hnumber.mono (Nat.le_succ _)
  cases Decimal.Integer.ofText? (inp.tokenAt c.next.pos).text with
  | some j =>
    refine .bind_expect hinp hnumber (by simp) fun _ hclose => ?_
    exact .pure _ hclose (Nat.le_succ _)
  | none => exact .stop hnumber (by simp)

/-! ## Selectors -/

theorem called_filter (hinp : inp.Marked) (hi : Ready inp i c.pos) (hc : c.pos ≤ inp.last) :
    Called inp .filter c (inp.filter i c) := by
  refine called_activate (by simp) ?_
  refine .bind_expect hinp (.refl hc) (by simp) fun _ hopen => ?_
  refine .bind_eat hinp (hopen.mono (Nat.le_succ _)) (by simp) (fun _ hclose => ?_) fun _ => ?_
  · exact .pure _ hclose (Nat.le_succ _)
  · have hbody := hi.expression (c.next.deepen Parse.filterCost) hopen.le_pos hopen.pos_le
    exact .enclosed _ hinp hopen (by simp [Rule.later]) (by simp [Rule.first]) hbody (by simp)

theorem called_predicate (hinp : inp.Marked) (hi : Ready inp i c.pos) (hc : c.pos ≤ inp.last) :
    Called inp .predicate c (inp.predicate i c) := by
  have hindex : ∀ {c' : Cursor}, Reaches inp c (c.pos + 1) c' → ∀ f : Index → Predicate,
      PartOf inp .predicate c c.pos c.pos ((do let k ← inp.index; pure (f k)) c') := by
    intro c' hc' f
    have hlow := hc'.mono (Nat.le_succ _)
    refine .bind_called (called_index hinp hc'.pos_le) hlow
      (.inr ⟨by simp [Rule.later], hc'.le_pos⟩) fun k c'' hc'' => ?_
    exact .pure _ (hc''.mono (Nat.le_add_right_of_le hlow.le_pos)) (Nat.le_refl _)
  refine called_activate (by simp) ?_
  rw [Input.bind_peek]
  split
  · rw [Input.bind_indexAhead]
    split
    · refine .bind_first (called_index hinp hc) hc (by simp [Rule.first]) fun j c' hc' => ?_
      rw [Input.bind_peek]
      split
      · exact hindex hc' _
      · exact .pure _ (hc'.mono (Nat.le_succ _)) (Nat.le_refl _)
    · refine .bind_first (called_filter hinp hi hc) hc (by simp [Rule.first]) fun f c' hc' => ?_
      rw [Input.bind_peek]
      split
      · exact hindex hc' _
      · exact .pure _ (hc'.mono (Nat.le_succ _)) (Nat.le_refl _)
  · exact .pure _ (.refl hc) (Nat.le_refl _)

theorem called_step (hinp : inp.Marked) (hi : Ready inp i c.pos) (hc : c.pos ≤ inp.last) :
    Called inp .step c (inp.step i c) := by
  have hnamed : ∀ {c' : Cursor} (mark : Option Token), Reaches inp c c.pos c' →
      PartOf inp .step c c.pos (c.pos + 1) ((do
        let name ← inp.nodeName
        let p ← inp.predicate i
        pure (Step.named mark.isSome name p)) c') := by
    intro c' mark hc'
    refine .bind_called (called_nodeName hinp hc'.pos_le) hc'
      (.inl ⟨by simp [Rule.first], hc'.le_pos⟩) fun name c'' hc'' => ?_
    have hc'' := hc''.mono (Nat.succ_le_succ hc'.le_pos)
    have hlow := hc''.mono (Nat.le_succ _)
    refine .bind_called (called_predicate hinp (hi.mono hlow.le_pos) hc''.pos_le) hlow
      (.inr ⟨by simp [Rule.later], hc''.le_pos⟩) fun p c₃ hc₃ => ?_
    exact .pure _ (hc₃.mono hc''.le_pos) (Nat.le_succ _)
  have hbegin : PartOf inp .step c c.pos (c.pos + 1) ((do
      let mark ← inp.eat .atSign
      let name ← inp.nodeName
      let p ← inp.predicate i
      pure (Step.named mark.isSome name p)) c) :=
    .bind_eat hinp (.refl hc) (by simp) (fun _ hnext => hnamed _ (hnext.mono (Nat.le_succ _)))
      fun _ => hnamed _ (.refl hc)
  refine called_activate (by simp) ?_
  rw [Input.bind_peek]
  cases hkind : (inp.tokenAt c.pos).kind with
  | dotDot | dot =>
    refine .bind_advance hinp (.refl hc) (by simp [hkind]) fun hnext => ?_
    exact .pure _ hnext (Nat.le_succ _)
  | atSign | identifier | star => exact hbegin
  | _ => exact .unexpected (.refl hc) _

theorem called_selector (hinp : inp.Marked) (hi : Ready inp i c.pos) (hc : c.pos ≤ inp.last) :
    Called inp .selector c (inp.selector i c) := by
  have hsteps : ∀ {c' : Cursor} (slash : Option Token), Reaches inp c c.pos c' →
      PartOf inp .selector c c.pos (c.pos + 1) ((do
        let first ← inp.step i
        let ss ←
          inp.whileAhead .steps (Kind.isExactly .slash) (inp.furtherStep i) i.rounds [first]
        pure (Selector.steps slash.isSome ss)) c') := by
    intro c' slash hc'
    refine .bind_called (called_step hinp (hi.mono hc'.le_pos) hc'.pos_le) hc'
      (.inl ⟨by simp [Rule.first], hc'.le_pos⟩) fun first c'' hc'' => ?_
    have hc'' := hc''.mono (Nat.succ_le_succ hc'.le_pos)
    refine .mono (.bind_whileAhead (Selector.steps slash.isSome) hinp (by simp)
      (.inr ⟨by simp [Rule.later], Nat.lt_succ_self _⟩) rfl ?_ hc''
      (hi.mono (Nat.le_of_succ_le hc''.le_pos)).rounds _) (Nat.le_succ _)
    intro ss _ c₃ hle hc₃
    refine .bind_called (called_step hinp (hi.mono ?_) hc₃.pos_le) hc₃
      (.inr ⟨by simp [Rule.later], Nat.lt_succ_self _⟩) fun s c₄ hc₄ => ?_
    · exact Nat.le_trans (Nat.le_of_succ_le hle) (Nat.le_succ _)
    · exact .pure _ (hc₄.mono (Nat.le_add_right _ _)) (Nat.le_refl _)
  refine called_activate (by simp) ?_
  refine .bind_eat hinp (.refl hc) (by simp) (fun _ hdollar => ?_) fun _ => ?_
  · refine .bind_expect hinp (hdollar.mono (Nat.le_succ _)) (by simp) fun _ hopen => ?_
    have hbody := hi.selector (c.next.next.deepen 1) hopen.le_pos hopen.pos_le
    exact .enclosed _ hinp hopen (by simp [Rule.later]) (by simp [Rule.first]) hbody (by simp)
  · exact .bind_eat hinp (.refl hc) (by simp) (fun _ hnext => hsteps _ (hnext.mono (Nat.le_succ _)))
      fun _ => hsteps _ (.refl hc)

/-! ## Primaries -/

theorem partOf_arguments (hinp : inp.Marked) {start : Cursor} {n : Nat}
    (hi : Ready inp i start.pos) (hc : Reaches inp start (start.pos + 1) c)
    (hn : inp.last - c.pos < n) (es : List Expr) :
    PartOf inp .functionCall start (start.pos + 1) (start.pos + 1) (inp.arguments i n es c) := by
  induction n generalizing es c with
  | zero => omega
  | succ n ih =>
    have hround : Called inp (.round .arguments) c (activate (.round .arguments) (do
        let e ← inp.nestedBy 1 i.expression
        let comma ← inp.eat .comma
        pure (es ++ [e], comma.isSome)) c) := by
      have hbody := hi.expression (c.deepen 1) hc.le_pos hc.pos_le
      refine called_activate (by simp) ?_
      refine .bind_first (called_nestedBy (by simp [Rule.first]) hc.pos_le hbody) hc.pos_le
        (by simp [Rule.first]) fun e c' hc' => ?_
      have hlow := hc'.mono (Nat.le_succ _)
      refine .bind_eat hinp hlow (by simp) (fun _ hnext => ?_) fun _ => ?_
      · exact .pure _ (hc'.next hnext.pos_le |>.mono (Nat.le_succ _)) (Nat.le_succ _)
      · exact .pure _ hc' (Nat.le_succ _)
    refine .bind_called hround hc (.inr ⟨by simp [Rule.later], hc.le_pos⟩) fun next c' hc' => ?_
    have hlow := hc'.mono (Nat.le_add_right_of_le hc.le_pos)
    have hpos : c.pos + 1 ≤ c'.pos := hc'.le_pos
    have hle := hc'.pos_le
    split
    · exact ih hlow (by omega) _
    · exact .pure _ hlow (Nat.le_refl _)

theorem called_functionCall (hinp : inp.Marked) (hi : Ready inp i c.pos) (hc : c.pos ≤ inp.last) :
    Called inp .functionCall c (inp.functionCall i c) := by
  have hcall : ∀ {c' : Cursor} (dollar : Option Token), Reaches inp c c.pos c' →
      PartOf inp .functionCall c c.pos (c.pos + 1) ((do
        let name ← inp.expect .identifier "a function name"
        let _ ← inp.expect .leftParen Parse.Expectation.openingParen.text
        let es ← inp.argumentList i
        let _ ← inp.expect .rightParen Parse.Expectation.nextArgument.text
        pure (MapExpr.Call.mk dollar.isSome name.text es)) c') := by
    intro c' dollar hc'
    refine .bind_expect hinp hc' (by simp) fun _ hname => ?_
    refine .mono (.bind_expect hinp hname (by simp) fun _ hopen => ?_) (Nat.le_succ _)
    have hopen := hopen.mono (Nat.le_succ _)
    have harguments : PartOf inp .functionCall c (c.pos + 1) (c.pos + 1)
        (inp.argumentList i c'.next.next) := by
      rw [Input.argumentList, Input.bind_peek]
      split
      · exact .pure _ hopen (Nat.le_refl _)
      · exact partOf_arguments hinp hi hopen (hi.mono (Nat.le_of_succ_le hopen.le_pos)).rounds _
    refine .bind harguments fun es _ hes => ?_
    refine .bind_expect hinp hes (by simp) fun _ hclose => ?_
    exact .pure _ (hclose.mono (Nat.le_succ _)) (Nat.le_refl _)
  refine called_activate (by simp) ?_
  exact .bind_eat hinp (.refl hc) (by simp) (fun _ hnext => hcall _ (hnext.mono (Nat.le_succ _)))
    fun _ => hcall _ (.refl hc)

theorem called_primary (hinp : inp.Marked) (hi : Ready inp i c.pos) (hc : c.pos ≤ inp.last) :
    Called inp .primary c (inp.primary i c) := by
  have hfirst : ∀ {α : Type} {x : Descent α} {callee : Rule} (f : α → Expr),
      Called inp callee c (x c) → callee ∈ Rule.primary.first → callee.taken = 1 →
      PartOf inp .primary c c.pos (c.pos + 1) ((do let a ← x; pure (f a)) c) := by
    intro α x callee f hx hcallee htaken
    refine .bind_first hx hc hcallee fun a c' hc' => ?_
    exact .pure _ (htaken ▸ hc') (Nat.le_succ _)
  have hconstant := hfirst Expr.constant (called_constant hinp hc) (by simp [Rule.first]) rfl
  have hcall := hfirst Expr.call (called_functionCall hinp hi hc) (by simp [Rule.first]) rfl
  have hselector := hfirst Expr.selector (called_selector hinp hi hc) (by simp [Rule.first]) rfl
  refine called_activate (by simp) ?_
  rw [Input.bind_peek]
  cases hkind : (inp.tokenAt c.pos).kind with
  | number | systemWord | literal => exact hconstant
  | dollar =>
    simp only [Input.bind_peekNth]
    cases hsecond : (inp.tokenAt (c.pos + 1)).kind with
    | identifier =>
      simp only [Input.bind_peekNth]
      split
      · exact hcall
      · refine .bind_advance hinp (.refl hc) (by simp [hkind]) fun hdollar => ?_
        have hdollar := hdollar.mono (Nat.le_succ _)
        refine .bind_advance hinp hdollar (by simp [hsecond]) fun hname => ?_
        exact .pure _ hname (Nat.le_succ _)
    | leftParen => exact hselector
    | _ => exact .stop (.refl hc) (by simp)
  | identifier =>
    simp only [Input.bind_peekNth]
    split
    · exact hcall
    · exact hselector
  | leftParen =>
    refine .bind_advance hinp (.refl hc) (by simp [hkind]) fun hopen => ?_
    have hbody := hi.expression (c.next.deepen 1) hopen.le_pos hopen.pos_le
    exact .enclosed _ hinp hopen (by simp [Rule.later]) (by simp [Rule.first]) hbody (by simp)
  | slash | dot | dotDot | star | atSign => exact hselector
  | _ => exact .unexpected (.refl hc) _

/-! ## Operators -/

/-- An operand that follows an operator, read up to the rule `callee` of a tighter level. -/
theorem partOf_operand {β : Type} (loop : Loop) {callee : Rule} {tighter : Expr → Descent Expr}
    (hinp : inp.Marked) (hi : Ready inp i c.pos) (hnext : Reaches inp c (c.pos + 1) c.next)
    (hprimary : .primary ∈ (Rule.round loop).later) (hcallee : callee ∈ (Rule.round loop).later)
    (htighter : ∀ c', c.pos ≤ c'.pos → c'.pos ≤ inp.last → ∀ e, Called inp callee c' (tighter e c'))
    (f : Expr → β) :
    PartOf inp (.round loop) c (c.pos + 1) (c.pos + 1) ((do
      let e ← inp.primary i
      let e ← tighter e
      pure (f e)) c.next) := by
  refine .bind_called (called_primary hinp (hi.mono (Nat.le_succ _)) hnext.pos_le) hnext
    (.inr ⟨hprimary, Nat.lt_succ_self _⟩) fun e c' hc' => ?_
  have hc' := hc'.mono (Nat.le_add_right _ _)
  have hle := Nat.le_of_succ_le hc'.le_pos
  refine .bind_called (htighter c' hle hc'.pos_le e) hc'
    (.inr ⟨hcallee, hc'.le_pos⟩) fun e c'' hc'' => ?_
  exact .pure _ (hc''.mono (Nat.le_add_right_of_le hc'.le_pos)) (Nat.le_refl _)

theorem called_product (hinp : inp.Marked) (hi : Ready inp i c.pos) (hc : c.pos ≤ inp.last)
    (first : Expr) : Called inp .product c (inp.product i first c) := by
  refine called_activate (by simp) (.bind_whileAhead _ hinp (by simp)
    (.inl ⟨by simp [Rule.first], Nat.le_refl _⟩) rfl ?_ (.refl hc) hi.rounds _)
  intro rest op c' hle hnext
  refine .bind_called (called_primary hinp (hi.mono (Nat.le_succ_of_le hle)) hnext.pos_le) hnext
    (.inr ⟨by simp [Rule.later], Nat.lt_succ_self _⟩) fun e c'' hc'' => ?_
  exact .pure _ (hc''.mono (Nat.le_add_right _ _)) (Nat.le_refl _)

theorem called_sum (hinp : inp.Marked) (hi : Ready inp i c.pos) (hc : c.pos ≤ inp.last)
    (first : Expr) : Called inp .sum c (inp.sum i first c) := by
  refine called_activate (by simp) ?_
  refine .bind_first (called_product hinp hi hc first) hc (by simp [Rule.first])
    fun first c' hc' => ?_
  refine .bind_whileAhead _ hinp (by simp) (.inl ⟨by simp [Rule.first], Nat.le_refl _⟩) rfl ?_ hc'
    (hi.mono hc'.le_pos).rounds _
  intro rest op c₃ hle hnext
  have hi := hi.mono hle
  exact partOf_operand .terms hinp hi hnext (by simp [Rule.later]) (by simp [Rule.later])
    (fun _ hle => called_product hinp (hi.mono hle)) fun e => rest ++ [(op, e)]

theorem called_comparison (hinp : inp.Marked) (hi : Ready inp i c.pos) (hc : c.pos ≤ inp.last)
    (first : Expr) : Called inp .comparison c (inp.comparison i first c) := by
  refine called_activate (by simp) ?_
  refine .bind_first (called_sum hinp hi hc first) hc (by simp [Rule.first]) fun left c' hc' => ?_
  rw [Input.bind_peek]
  cases hop : Kind.relationalOp? (inp.tokenAt c'.pos).kind with
  | none => exact .pure _ hc' (Nat.le_refl _)
  | some op =>
    have heof : (inp.tokenAt c'.pos).kind ≠ .eof := fun h => by simp [h, Kind.relationalOp?,
      Parse.Operator.ofKind?] at hop
    refine .bind_advance hinp hc' heof fun hnext => ?_
    have hlow := hnext.mono (Nat.le_succ _)
    refine .bind_called (called_primary hinp (hi.mono hlow.le_pos) hnext.pos_le) hlow
      (.inr ⟨by simp [Rule.later], hnext.le_pos⟩) fun e c'' hc'' => ?_
    have hc'' := hc''.mono (Nat.le_add_right_of_le hnext.le_pos)
    have hlow := hc''.mono (Nat.le_succ _)
    refine .bind_called (called_sum hinp (hi.mono hlow.le_pos) hc''.pos_le e) hlow
      (.inr ⟨by simp [Rule.later], hc''.le_pos⟩) fun right c₃ hc₃ => ?_
    have hc₃ := hc₃.mono (Nat.le_add_right_of_le hlow.le_pos)
    rw [Input.bind_peek]
    split
    · exact .unexpected hc₃ _
    · exact .pure _ hc₃ (Nat.le_refl _)

theorem called_conjunction (hinp : inp.Marked) (hi : Ready inp i c.pos) (hc : c.pos ≤ inp.last)
    (first : Expr) : Called inp .conjunction c (inp.conjunction i first c) := by
  refine called_activate (by simp) ?_
  refine .bind_first (called_comparison hinp hi hc first) hc (by simp [Rule.first])
    fun first c' hc' => ?_
  refine .bind_whileAhead _ hinp (by simp) (.inl ⟨by simp [Rule.first], Nat.le_refl _⟩) rfl ?_ hc'
    (hi.mono hc'.le_pos).rounds _
  intro es _ c₃ hle hnext
  have hi := hi.mono hle
  exact partOf_operand .conjuncts hinp hi hnext (by simp [Rule.later]) (by simp [Rule.later])
    (fun _ hle => called_comparison hinp (hi.mono hle)) fun e => es ++ [e]

theorem called_disjunction (hinp : inp.Marked) (hi : Ready inp i c.pos) (hc : c.pos ≤ inp.last)
    (first : Expr) : Called inp .disjunction c (inp.disjunction i first c) := by
  refine called_activate (by simp) ?_
  refine .bind_first (called_conjunction hinp hi hc first) hc (by simp [Rule.first])
    fun first c' hc' => ?_
  refine .bind_whileAhead _ hinp (by simp) (.inl ⟨by simp [Rule.first], Nat.le_refl _⟩) rfl ?_ hc'
    (hi.mono hc'.le_pos).rounds _
  intro es _ c₃ hle hnext
  have hi := hi.mono hle
  exact partOf_operand .disjuncts hinp hi hnext (by simp [Rule.later]) (by simp [Rule.later])
    (fun _ hle => called_conjunction hinp (hi.mono hle)) fun e => es ++ [e]

/-! ## Whole expressions -/

theorem called_union (hinp : inp.Marked) (hi : Ready inp i c.pos) (hc : c.pos ≤ inp.last)
    (first : Selector) : Called inp .union c (inp.union i first c) := by
  refine called_activate (by simp) (.bind_whileAhead _ hinp (by simp)
    (.inl ⟨by simp [Rule.first], Nat.le_refl _⟩) rfl ?_ (.refl hc) hi.rounds _)
  intro ss _ c' hle hnext
  refine .bind_called (called_selector hinp (hi.mono (Nat.le_succ_of_le hle)) hnext.pos_le) hnext
    (.inr ⟨by simp [Rule.later], Nat.lt_succ_self _⟩) fun s c'' hc'' => ?_
  exact .pure _ (hc''.mono (Nat.le_add_right _ _)) (Nat.le_refl _)

theorem called_expression (hinp : inp.Marked) (hi : Ready inp i c.pos) (hc : c.pos ≤ inp.last) :
    Called inp .expression c (inp.expression i c) := by
  refine called_activate (by simp) ?_
  refine .bind_first (called_primary hinp hi hc) hc (by simp [Rule.first]) fun e c' hc' => ?_
  have hi := hi.mono (Nat.le_of_succ_le hc'.le_pos)
  have hlow := hc'.mono (Nat.le_succ _)
  have hhigh : c.pos + Rule.expression.taken ≤ c'.pos := hc'.le_pos
  have hunion : ∀ s, PartOf inp .expression c c.pos (c.pos + 1) (inp.union i s c') := fun s =>
    (called_union hinp hi hc'.pos_le s).partOf hlow (.inr ⟨by simp [Rule.later], hc'.le_pos⟩) hhigh
  have hdisjunction : ∀ e, PartOf inp .expression c c.pos (c.pos + 1) (inp.disjunction i e c') :=
    fun e => (called_disjunction hinp hi hc'.pos_le e).partOf hlow
      (.inr ⟨by simp [Rule.later], hc'.le_pos⟩) hhigh
  cases e with
  | selector s =>
    simp only [Input.bind_peek]
    split
    · exact hunion s
    · exact hdisjunction _
  | _ => exact hdisjunction _

theorem called_main (hinp : inp.Marked) (hi : Ready inp i c.pos) (hc : c.pos ≤ inp.last) :
    Called inp .main c (inp.main i c) := by
  refine called_activate (by simp) ?_
  have hbody := called_expression hinp (c := c.deepen 1) hi hc
  refine .bind_first (called_nestedBy (by simp [Rule.first]) hc hbody) hc (by simp [Rule.first])
    fun root c' hc' => ?_
  have hlow := hc'.mono (Nat.le_succ _)
  by_cases heof : (inp.tokenAt c'.pos).kind = .eof
  · rw [Input.bind_expect_eof _ heof]
    exact .pure _ hc' (Nat.le_succ _)
  · rw [Input.bind_expect_of_ne _ heof]
    exact .stop hlow (by simp)

/-! ## Enough levels -/

theorem ready_inner (hinp : inp.Marked) {n : Nat} (hn : inp.last - p < n) (hp : p ≤ inp.last) :
    Ready inp (inp.inner n) p := by
  induction n generalizing p with
  | zero => omega
  | succ n ih =>
    refine ⟨hn, fun c hc hlast => ?_, fun c hc hlast => ?_⟩
    · exact called_expression hinp (ih (by omega) hlast) hlast
    · exact called_selector hinp (ih (by omega) hlast) hlast

/-- A descent over all tokens is a sound call of the first rule. -/
theorem called_start (hinp : inp.Marked) :
    Called inp .main ⟨0, 0⟩ (inp.main (inp.inner inp.tokens.length) ⟨0, 0⟩) := by
  have hlength : 0 < inp.tokens.length := by
    obtain ⟨front, htokens, -⟩ := hinp.exists_front
    simp [htokens]
  have hready : Ready inp (inp.inner inp.tokens.length) 0 :=
    ready_inner hinp (by rw [Input.last]; omega) (Nat.zero_le _)
  exact called_main hinp hready (Nat.zero_le _)

/-- A call of which the value is forgotten is still a call. -/
theorem Called.forget {α : Type} {rule : Rule} {x : Descent α} (h : Called inp rule c (x c)) :
    Called inp rule c ((do let _ ← x) c) := by
  obtain ⟨d, hd, hsound⟩ := h.exists_isCall
  have hcompleted := hd.completed_eq
  cases hresult : (x c).result with
  | error why =>
    rw [hresult] at hcompleted
    rw [bind_of_error _ hresult]
    refine ⟨fun hwhy => h.ne_exhausted ?_, d, { hd with completed_eq := hcompleted }, hsound⟩
    rw [hresult, Except.error.inj hwhy]
  | ok a =>
    rw [hresult] at hcompleted
    rw [bind_of_ok _ hresult]
    refine ⟨(by cases ·), d, { hd with calls_eq := ?_, completed_eq := hcompleted }, hsound⟩
    simp [hd.calls_eq, pure_apply]

/-- A rule called on its own is a sound call, as soon as there are enough levels. -/
theorem Request.called (hinp : inp.Marked) (hi : Ready inp i c.pos) (hc : c.pos ≤ inp.last)
    (request : Request) : Called inp request.rule c (request.perform inp i c) := by
  cases request with
  | main => exact (called_main hinp hi hc).forget
  | expression => exact (called_expression hinp hi hc).forget
  | union first => exact (called_union hinp hi hc first).forget
  | disjunction first => exact (called_disjunction hinp hi hc first).forget
  | conjunction first => exact (called_conjunction hinp hi hc first).forget
  | comparison first => exact (called_comparison hinp hi hc first).forget
  | sum first => exact (called_sum hinp hi hc first).forget
  | product first => exact (called_product hinp hi hc first).forget
  | primary => exact (called_primary hinp hi hc).forget
  | constant => exact (called_constant hinp hc).forget
  | functionCall => exact (called_functionCall hinp hi hc).forget
  | selector => exact (called_selector hinp hi hc).forget
  | step => exact (called_step hinp hi hc).forget
  | nodeName => exact (called_nodeName hinp hc).forget
  | predicate => exact (called_predicate hinp hi hc).forget
  | index => exact (called_index hinp hc).forget
  | filter => exact (called_filter hinp hi hc).forget

end MapExpr.Descent
