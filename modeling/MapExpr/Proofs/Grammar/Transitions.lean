import MapExpr.Proofs.Grammar.Complete
import MapExpr.Proofs.Grammar.Fronts

/-!
# What a token leaves behind

The functions that a token passes through, in the order in which it does: what is complete, what
follows it, and what begins. Each has a lemma for the words that lead to the state after it, if
there is one.

* `ExprHole.resume_front`, `SelectorHole.resume_front`: the end of an expression and of a selector;
* `afterOperand_front` to `afterFirstName_front`: what follows an operand, a step and a name;
* `beginOperand_front`, `beginSelector_front`, `beginStep_front`: what begins.
-/

namespace MapExpr.Parse

open Grammar Outcome

variable {limit : Nat} {ws us vs : List Word} {t : Token} {s' : State} {e : Expr} {c : Chain}
  {hole : ExprHole} {place : SelectorHole} {path : Path} {head : StepHead} {s : Selector}
  {k l m : Language Word} {kind : Kind}

theorem eq_of_go {s : State} (h : (go s).value = .ok s') : s = s' :=
  Except.ok.inj h

theorem not_of_refuse {x : Expectation} (h : (refuse x t).value = .ok s') : False := by
  cases h

/-- A token of a kind after the words of a language. -/
theorem taken (h : ws ∈ k) (ht : t.kind = kind) (hk : k * symbol kind ≤ l) : ws ++ [t.word] ∈ l :=
  snoc_mem h (ht ▸ word_mem_symbol t) hk

theorem word_mem_name (ht : t.kind = .identifier) : [t.word] ∈ name t.text := by
  show [Token.word t] = _
  rw [Token.word, ht]

theorem mem_mark {present : Bool} :
    ws ∈ mark present kind ↔ ∃ p, ws = Word.optional present ⟨kind, p⟩ := by
  cases present with
  | true => rfl
  | false => exact ⟨fun h => ⟨"", h⟩, fun ⟨_, h⟩ => h⟩

theorem expressionDue_mem (h : ws ∈ hole.front) (hstarts : hole.starts = ⊤) :
    ws ∈ (State.expressionDue hole).front := by
  rw [State.front, hstarts, inf_top_eq, mul_one]
  exact h

theorem snoc_mem_bodies {w : Word} (hw : w.kind ≠ .number) : vs ++ [w] ∈ hole.bodies := by
  cases hole with
  | filter head path outer =>
    intro u hu
    obtain rfl : w = u := by simpa using congrArg List.getLast? hu
    simp [Word.isWhole, hw]
  | _ => trivial

/-- An operand whose last word is no number is complete. -/
theorem operandDone_mem (h : ws ∈ hole.front * c.front * l) (ht : t.kind = kind)
    (hkind : kind ≠ .number) (hl : l * symbol kind ≤ text (.phrase .primary) e) :
    ws ++ [t.word] ∈ (State.operandDone e c hole).front := by
  obtain ⟨_, ⟨us, hus, xs, hxs, rfl⟩, vs, hvs, rfl⟩ := h
  have hbody : xs ++ vs ++ [t.word] ∈ hole.bodies := snoc_mem_bodies (by simpa [ht] using hkind)
  have hoperand : xs ++ vs ++ [t.word] ∈ c.front * text (.phrase .primary) e := by
    rw [List.append_assoc]
    exact Language.append_mem_mul hxs (taken hvs ht hl)
  simp only [List.append_assoc] at *
  exact Language.append_mem_mul hus ⟨hoperand, hbody⟩

/-! ## Ends -/

theorem group_le : symbol .leftParen * (text .expression e * symbol .rightParen) ≤
    text (.phrase .primary) (.group e) := by
  simp only [mul_le_iff, Language.mem_mul]
  rintro _ ⟨p, rfl⟩ _ ⟨us, ⟨n, hus⟩, _, ⟨q, rfl⟩, rfl⟩
  exact ⟨_, .group hus⟩

theorem call_le {withDollar : Bool} {x : String} {es : List Expr} :
    callFront withDollar x * (text .arguments es * symbol .rightParen) ≤
      text (.phrase .primary) (.call (.mk withDollar x es)) := by
  simp only [callFront, mul_assoc, mul_le_iff, Language.mem_mul, mem_mark]
  rintro _ ⟨p, rfl⟩ _ ⟨_, rfl, _, ⟨_, ⟨q, rfl⟩, _, ⟨us, ⟨n, hus⟩, _, ⟨r, rfl⟩, rfl⟩, rfl⟩, rfl⟩
  exact ⟨_, .call hus⟩

theorem callEmpty_le {withDollar : Bool} {x : String} :
    callFront withDollar x * symbol .rightParen ≤
      text (.phrase .primary) (.call (.mk withDollar x [])) := by
  simp only [callFront, mul_assoc, mul_le_iff, Language.mem_mul, mem_mark]
  rintro _ ⟨p, rfl⟩ _ ⟨_, rfl, _, ⟨_, ⟨q, rfl⟩, _, ⟨r, rfl⟩, rfl⟩, rfl⟩
  exact ⟨0, .callEmpty⟩

theorem ExprHole.resume_front (hus : us ∈ hole.front) (hvs : vs ∈ text .expression e)
    (hbody : t.kind = .rightBracket → vs ∈ hole.bodies)
    (h : (hole.resume e t).value = .ok s') : us ++ vs ++ [t.word] ∈ s'.front := by
  have hmem := Language.append_mem_mul hus hvs
  cases hole with
  | root =>
    simp only [resume] at h
    split at h
    · rename_i hkind
      obtain rfl := eq_of_go h
      obtain rfl := (Language.mem_one us).1 hus
      refine Language.append_mem_mul hvs ⟨_, hkind ▸ word_mem_symbol t, [], trivial, rfl⟩
    · exact (not_of_refuse h).elim
  | group c outer =>
    rw [ExprHole.front, mul_assoc] at hmem
    simp only [resume] at h
    split at h
    · rename_i hkind
      obtain rfl := eq_of_go h
      exact operandDone_mem hmem hkind (by decide) (by rw [mul_assoc]; exact group_le)
    · exact (not_of_refuse h).elim
  | argument withDollar x before c outer =>
    rw [ExprHole.front, mul_assoc] at hmem
    simp only [resume] at h
    split at h
    · rename_i hkind
      obtain rfl := eq_of_go h
      refine expressionDue_mem (taken hmem hkind ?_) rfl
      simp only [mul_assoc]
      grw [mul_mul_le (argumentFront_mul_le _ _)]
      simp only [ExprHole.front, argumentFront, frontOf, mul_assoc]
      rfl
    · rename_i hkind
      obtain rfl := eq_of_go h
      refine operandDone_mem hmem hkind (by decide) ?_
      simp only [mul_assoc]
      grw [mul_mul_le (argumentFront_mul_le _ _)]
      exact call_le
    · exact (not_of_refuse h).elim
  | filter head path outer =>
    simp only [resume] at h
    split at h
    · rename_i hkind
      obtain rfl := eq_of_go h
      have hfilter : vs ∈ text .filter (.ofExpr e) := by
        obtain ⟨n, hn⟩ := hvs
        exact ⟨_, .someFilter hn (hbody hkind)⟩
      refine taken (Language.append_mem_mul hus hfilter) hkind (le_of_eq ?_)
      simp only [ExprHole.front, State.front, filterText, mul_assoc]
    · exact (not_of_refuse h).elim

theorem afterOperand_front (hus : us ∈ hole.front)
    (hvs : vs ∈ c.front * text (.phrase .primary) e)
    (hbody : t.kind = .rightBracket → vs ∈ hole.bodies)
    (h : (afterOperand e c hole t).value = .ok s') : us ++ vs ++ [t.word] ∈ s'.front := by
  simp only [afterOperand] at h
  split at h
  · rename_i op hop
    rw [Traced.value_bind] at h
    cases hpush : (c.push e op).value with
    | none =>
      rw [hpush] at h
      exact (not_of_refuse h).elim
    | some d =>
      rw [hpush] at h
      obtain rfl := eq_of_go h
      have hfront : vs ++ [t.word] ∈ d.front := by
        refine taken hvs rfl ?_
        rw [mul_assoc]
        exact Chain.push_front hpush hop
      have hstarts : vs ++ [t.word] ∈ hole.starts := by
        cases hole with
        | filter => exact List.concat_ne_nil _ _
        | _ => trivial
      rw [List.append_assoc]
      exact Language.append_mem_mul hus ⟨hfront, hstarts⟩
  · rw [Traced.value_bind] at h
    exact ExprHole.resume_front hus (Chain.front_mul_le c e hvs) hbody h

/-- A selector is no number, whatever stands before it. -/
theorem append_selector_mem_bodies (hvs : vs ∈ text .selector s) : us ++ vs ∈ hole.bodies := by
  obtain ⟨n, hvs⟩ := hvs
  cases hole with
  | filter =>
    intro w hw
    obtain ⟨v, vs, rfl⟩ := List.exists_cons_of_ne_nil (Category.ne_nil_of_reads_selector hvs.reads)
    have hlength := congrArg List.length hw
    simp only [List.length_append, List.length_cons, List.length_nil] at hlength
    obtain rfl := List.eq_nil_of_length_eq_zero (show us.length = 0 by omega)
    obtain ⟨rfl, -⟩ := List.cons.inj hw
    simp [Word.isWhole, Category.head_of_reads_selector hvs.reads]
  | _ => trivial

theorem scoped_le : symbol .dollar * (symbol .leftParen * (text .selector s * symbol .rightParen)) ≤
    text .selector (.scoped s) := by
  simp only [mul_le_iff, Language.mem_mul]
  rintro _ ⟨p, rfl⟩ _ ⟨_, ⟨q, rfl⟩, _, ⟨us, ⟨n, hus⟩, _, ⟨r, rfl⟩, rfl⟩, rfl⟩
  exact ⟨_, .scopedSelector hus⟩

theorem members_mul_le {ss : List Selector} :
    text .members ss * (symbol .pipe * text .selector s) ≤ text .members (ss ++ [s]) :=
  join_le fun h h' => ⟨_, .nextMember h h'⟩

@[simp] theorem Chain.front_empty : Chain.empty.front = 1 := by
  simp [Chain.front, Chain.empty, disjunctFront, conjunctFront, comparedFront, termFront,
    factorFront, frontOf]

theorem SelectorHole.resume_front (hus : us ∈ place.front) (hvs : vs ∈ text .selector s)
    (h : (place.resume s t).value = .ok s') : us ++ vs ++ [t.word] ∈ s'.front := by
  have hmem := Language.append_mem_mul hus hvs
  cases place with
  | operand c outer =>
    simp only [resume] at h
    split at h
    · rename_i hpipe
      obtain rfl := eq_of_go h
      obtain rfl := Chain.eq_empty hpipe.1
      refine taken hmem hpipe.2 ?_
      simp only [SelectorHole.front, State.front, Chain.front_empty, mul_one, mul_assoc]
      grw [rule_le fun h => ⟨_, .firstMember h⟩]
      rfl
    · obtain ⟨us, hus, xs, hxs, rfl⟩ := hus
      have hoperand : xs ++ vs ∈ c.front * text (.phrase .primary) (.selector s) :=
        Language.append_mem_mul hxs (rule_le (fun h => ⟨_, .selected h⟩) hvs)
      have := afterOperand_front hus hoperand (fun _ => append_selector_mem_bodies hvs) h
      simpa only [List.append_assoc] using this
  | member before outer =>
    cases before with
    | nil => exact hus.elim
    | cons s₁ before =>
      simp only [resume] at h
      split at h
      · rename_i hpipe
        obtain rfl := eq_of_go h
        refine taken hmem hpipe ?_
        rw [SelectorHole.front, State.front, SelectorHole.front, List.reverse_cons (a := s)]
        simp only [mul_assoc]
        grw [← members_mul_le]
        simp only [mul_assoc]
        rfl
      · rw [Traced.value_bind, Traced.value_note] at h
        obtain ⟨us, hus, ms, hms, rfl⟩ := hus
        have hunion : ms ++ vs ∈ text .expression (.union (s :: s₁ :: before).reverse) := by
          have hmembers : ms ++ vs ∈ text .members ((s₁ :: before).reverse ++ [s]) := by
            refine members_mul_le ?_
            rw [← mul_assoc]
            exact Language.append_mem_mul hms hvs
          rw [List.reverse_cons (a := s)]
          exact rule_le (fun h => ⟨_, .union h (by simp)⟩) hmembers
        have := ExprHole.resume_front hus hunion (fun _ => append_selector_mem_bodies hvs) h
        simpa only [List.append_assoc] using this
  | _ =>
    rename_i outer
    simp only [resume] at h
    split at h
    · rename_i hkind
      obtain rfl := eq_of_go h
      refine taken hmem hkind ?_
      simp only [SelectorHole.front, State.front, mul_assoc]
      grw [scoped_le]
    · exact (not_of_refuse h).elim

theorem texts_mul_le : path.texts * symbol .slash ≤ path.front := by
  obtain ⟨absolute, before⟩ := path
  cases before with
  | nil =>
    simp only [Path.texts, zero_mul]
    exact bot_le
  | cons t before => exact le_of_eq (mul_assoc _ _ _)

theorem texts_le : path.texts ≤ text .selector path.toSelector := by
  obtain ⟨absolute, before⟩ := path
  cases before with
  | nil => exact bot_le
  | cons t before =>
    simp only [Path.texts, Path.toSelector, mul_le_iff, mem_mark]
    rintro _ ⟨p, rfl⟩ us ⟨n, hus⟩
    exact ⟨n, .path hus⟩

theorem push_texts {st : Step} : path.front * text .step st ≤ (path.push st).texts := by
  simp only [Path.front, Path.texts, Path.push, mul_assoc]
  grw [stepFront_mul_le]

theorem afterStep_front (hws : ws ∈ place.front * path.texts)
    (h : (afterStep path place t).value = .ok s') : ws ++ [t.word] ∈ s'.front := by
  simp only [afterStep] at h
  split at h
  · rename_i hkind
    obtain rfl := eq_of_go h
    refine taken hws hkind ?_
    rw [mul_assoc, State.front]
    grw [texts_mul_le]
  · obtain ⟨us, hus, vs, hvs, rfl⟩ := hws
    exact SelectorHole.resume_front hus (texts_le hvs) h

theorem toStep_le {p : Predicate} :
    head.texts * text .predicate p ≤ text .step (head.toStep p) := by
  simp only [StepHead.texts, mul_le_iff, Language.mem_mul, mem_mark]
  rintro _ ⟨_, ⟨p, rfl⟩, us, ⟨m, hus⟩, rfl⟩ vs ⟨n, hvs⟩
  exact ⟨_, .named hus hvs⟩

/-- A predicate completes a step. -/
theorem stepDone_le {p : Predicate} :
    place.front * path.front * (head.texts * text .predicate p) ≤
      place.front * (path.push (head.toStep p)).texts := by
  rw [mul_assoc]
  grw [toStep_le, push_texts]

theorem one_le_absent : 1 ≤ text .predicate .absent := by
  rintro _ rfl
  exact ⟨0, .absent⟩

/-- What follows a predicate follows its step. -/
theorem afterPredicate_front {p : Predicate} (hl : l ≤ text .predicate p)
    (hws : ws ∈ place.front * path.front * (head.texts * l))
    (h : (afterStep (path.push (head.toStep p)) place t).value = .ok s') :
    ws ++ [t.word] ∈ s'.front := by
  have hle : place.front * path.front * (head.texts * l) ≤
      place.front * (path.push (head.toStep p)).texts := by
    grw [hl, stepDone_le]
  exact afterStep_front (hle hws) h

theorem afterStepName_front (hws : ws ∈ place.front * path.front * head.texts)
    (h : (afterStepName head path place t).value = .ok s') : ws ++ [t.word] ∈ s'.front := by
  simp only [afterStepName] at h
  split at h
  · rename_i hkind
    obtain rfl := eq_of_go h
    exact taken hws hkind (le_of_eq (mul_assoc _ _ _))
  · rw [← mul_one head.texts] at hws
    exact afterPredicate_front one_le_absent hws h

theorem afterFirstName_front {isAttribute : Bool} {x : String}
    (hws : ws ∈ place.front * path.front * (mark isAttribute .atSign * name x))
    (h : (afterFirstName isAttribute x path place t).value = .ok s') :
    ws ++ [t.word] ∈ s'.front := by
  simp only [afterFirstName] at h
  split at h
  · rename_i hkind
    obtain rfl := eq_of_go h
    exact taken hws hkind (le_of_eq (by simp only [State.front, mul_assoc]))
  · have hname : name x ≤ text .name (.plain x) := by
      rintro _ rfl
      exact ⟨0, .plainName⟩
    have hle : place.front * path.front * (mark isAttribute .atSign * name x) ≤
        place.front * path.front * StepHead.texts ⟨isAttribute, .plain x⟩ := by
      rw [StepHead.texts]
      grw [← hname]
    exact afterStepName_front (hle hws) h

/-! ## Beginnings -/

theorem wildcard_le {isAttribute : Bool} : mark isAttribute .atSign * symbol .star ≤
    StepHead.texts ⟨isAttribute, ⟨none, .wildcard⟩⟩ := by
  have hname : symbol .star ≤ text .name ⟨none, .wildcard⟩ := by
    rintro _ ⟨p, rfl⟩
    exact ⟨0, .plainWildcard⟩
  rw [StepHead.texts]
  grw [← hname]

theorem beginStep_front (hws : ws ∈ place.front * path.front)
    (h : (beginStep path place t).value = .ok s') : ws ++ [t.word] ∈ s'.front := by
  simp only [beginStep] at h
  split at h
  all_goals rename_i hkind
  · obtain rfl := eq_of_go h
    have hparent : symbol .dotDot ≤ text .step .parent := fun _ ⟨p, hp⟩ => hp ▸ ⟨0, .parent⟩
    refine taken hws hkind ?_
    rw [mul_assoc, State.front]
    grw [hparent, push_texts]
  · obtain rfl := eq_of_go h
    have hcurrent : symbol .dot ≤ text .step .current := fun _ ⟨p, hp⟩ => hp ▸ ⟨0, .current⟩
    refine taken hws hkind ?_
    rw [mul_assoc, State.front]
    grw [hcurrent, push_texts]
  · obtain rfl := eq_of_go h
    exact taken hws hkind le_rfl
  · obtain rfl := eq_of_go h
    exact snoc_mem hws (word_mem_name hkind) (le_of_eq (by simp [State.front, mark]))
  · obtain rfl := eq_of_go h
    refine taken hws hkind ?_
    rw [State.front]
    grw [← wildcard_le]
    simp [mark]
  · exact (not_of_refuse h).elim

theorem beginSelector_front (hws : ws ∈ place.front)
    (h : (beginSelector place t).value = .ok s') : ws ++ [t.word] ∈ s'.front := by
  simp only [beginSelector] at h
  split at h
  all_goals rename_i hkind
  · obtain rfl := eq_of_go h
    exact taken hws hkind le_rfl
  · obtain rfl := eq_of_go h
    exact taken hws hkind (le_of_eq (by simp [State.front, Path.front, mark, stepFront, frontOf]))
  · refine beginStep_front ?_ h
    simpa [Path.front, mark, stepFront, frontOf] using hws

theorem constant_mem {x : Constant} (h : constant? t = some x) :
    [t.word] ∈ text (.phrase .primary) (.constant x) := by
  obtain ⟨kind, text, start⟩ := t
  simp only [constant?] at h
  split at h
  · obtain ⟨d, hd, rfl⟩ := Option.map_eq_some_iff.1 h
    exact ⟨0, .number hd⟩
  · obtain rfl := Option.some.inj h
    exact ⟨0, .system⟩
  · obtain rfl := Option.some.inj h
    exact ⟨0, .literal⟩
  · cases h

theorem beginConstant_front (hus : us ∈ hole.front) (hvs : vs ∈ c.front)
    (hstart : t.isWhole = true → vs ∈ hole.starts)
    (h : (beginConstant c hole t).value = .ok s') : us ++ vs ++ [t.word] ∈ s'.front := by
  simp only [beginConstant] at h
  split at h
  · rename_i x hx
    obtain rfl := eq_of_go h
    have hbody : vs ++ [t.word] ∈ hole.bodies := by
      cases hole with
      | filter =>
        intro w hw
        obtain ⟨rfl, hlast⟩ | ⟨-, hnil⟩ := List.append_eq_singleton_iff.1 hw
        · obtain rfl := List.singleton_injective hlast
          exact eq_false_of_ne_true fun hwhole => hstart hwhole rfl
        · cases hnil
      | _ => trivial
    rw [List.append_assoc]
    exact Language.append_mem_mul hus ⟨Language.append_mem_mul hvs (constant_mem hx), hbody⟩
  · exact (not_of_refuse h).elim

theorem beginOperand_front (hus : us ∈ hole.front) (hvs : vs ∈ c.front)
    (hstart : t.isWhole = true → vs ∈ hole.starts)
    (h : (beginOperand c hole t).value = .ok s') : us ++ vs ++ [t.word] ∈ s'.front := by
  have hmem := Language.append_mem_mul hus hvs
  simp only [beginOperand] at h
  split at h
  all_goals rename_i hkind
  · exact beginConstant_front hus hvs hstart h
  · exact beginConstant_front hus hvs hstart h
  · exact beginConstant_front hus hvs hstart h
  · obtain rfl := eq_of_go h
    exact taken hmem hkind le_rfl
  · obtain rfl := eq_of_go h
    exact snoc_mem hmem (word_mem_name hkind) le_rfl
  · obtain rfl := eq_of_go h
    exact expressionDue_mem (taken hmem hkind le_rfl) rfl
  · split at h
    · have hplace : us ++ vs ∈ (SelectorHole.operand c hole).front := hmem
      exact beginSelector_front hplace h
    · exact (not_of_refuse h).elim

theorem of_within {d : Nat} {o : Outcome} (h : (within limit d t o).value = .ok s') :
    o.value = .ok s' := by
  simp only [within] at h
  split at h
  · cases h
  · exact h

end MapExpr.Parse
