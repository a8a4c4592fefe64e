import MapExpr.Proofs.Grammar.Transitions

/-!
# Words that are read are derived

Every token leads from the front of a state to that of the next state. Each state has a lemma of its
own, and `State.advances` puts them together.

* `State.Advances`, `State.advances`: what a token leaves behind;
* `State.run_front`: what a run of tokens leaves behind;
* `derives_of_accepted`: the words of an accepted text are a text of its expression.
-/

namespace MapExpr.Parse

open Grammar Outcome

/-- Every token that is taken leads from the front of a state to that of the next one. -/
def State.Advances (s : State) : Prop :=
  ∀ {limit : Nat} {ws : List Word} {t : Token} {s' : State}, ws ∈ s.front →
    (s.step limit t).value = .ok s' → ws ++ [t.word] ∈ s'.front

variable {c : Chain} {hole : ExprHole} {place : SelectorHole} {path : Path} {head : StepHead}
  {withDollar isAttribute : Bool} {x : String}

/-! ## Operands -/

theorem advances_expressionDue : (State.expressionDue hole).Advances := by
  rintro limit _ t s' ⟨us, hus, vs, ⟨hvs, hstarts⟩, rfl⟩ h
  rw [← Chain.front_empty] at hvs
  exact beginOperand_front hus hvs (fun _ => hstarts) (of_within h)

theorem advances_operandDue : (State.operandDue c hole).Advances := by
  rintro limit _ t s' ⟨us, hus, vs, ⟨hvs, hstarts⟩, rfl⟩ h
  exact beginOperand_front hus hvs (fun _ => hstarts) h

theorem advances_dollar : (State.dollar c hole).Advances := by
  intro limit ws t s' hws h
  simp only [State.step] at h
  split at h
  all_goals rename_i hkind
  · obtain rfl := eq_of_go h
    exact snoc_mem hws (word_mem_name hkind) (le_of_eq (mul_assoc _ _ _))
  · obtain rfl := eq_of_go h
    exact taken hws hkind (le_of_eq (mul_assoc _ _ _))
  · exact (not_of_refuse h).elim

theorem advances_dollarName : (State.dollarName x c hole).Advances := by
  intro limit ws t s' hws h
  simp only [State.step] at h
  split at h
  all_goals rename_i hkind
  · obtain rfl := eq_of_go h
    refine taken hws hkind (le_of_eq ?_)
    simp only [State.front, callFront, mark, ↓reduceIte, mul_assoc]
  · obtain ⟨_, ⟨us, hus, vs, hvs, rfl⟩, _, ⟨_, ⟨p, rfl⟩, _, rfl, rfl⟩, rfl⟩ := hws
    have hoperand : vs ++ [⟨.dollar, p⟩, ⟨.identifier, x⟩] ∈
        c.front * text (.phrase .primary) (.variableRef x) :=
      Language.append_mem_mul hvs ⟨0, .variableRef⟩
    have hbody : vs ++ [⟨.dollar, p⟩, ⟨.identifier, x⟩] ∈ hole.bodies := by
      rw [List.append_cons]
      exact snoc_mem_bodies (by simp)
    have := afterOperand_front hus hoperand (fun _ => hbody) h
    simpa using this

theorem advances_leadingName : (State.leadingName x c hole).Advances := by
  intro limit ws t s' hws h
  simp only [State.step] at h
  split at h
  all_goals rename_i hkind
  · obtain rfl := eq_of_go h
    refine taken hws hkind (le_of_eq ?_)
    simp [State.front, callFront, mark, mul_assoc]
  · refine afterFirstName_front ?_ h
    simpa [State.front, SelectorHole.front, Path.front, mark, stepFront, frontOf] using hws

theorem advances_callOpened : (State.callOpened withDollar x c hole).Advances := by
  intro limit ws t s' hws h
  simp only [State.step] at h
  split at h
  all_goals rename_i hkind
  · obtain rfl := eq_of_go h
    exact operandDone_mem hws hkind (by decide) callEmpty_le
  · have hfront : ws ∈ (ExprHole.argument withDollar x [] c hole).front := by
      simpa [State.front, ExprHole.front, argumentFront, frontOf] using hws
    have hempty : [] ∈ Chain.empty.front := Chain.front_empty ▸ Language.nil_mem_one
    have := beginOperand_front hfront hempty (fun _ => trivial) (of_within h)
    simpa using this

theorem advances_operandDone {e : Expr} : (State.operandDone e c hole).Advances := by
  rintro limit _ t s' ⟨us, hus, vs, ⟨hvs, hbody⟩, rfl⟩ h
  exact afterOperand_front hus hvs (fun _ => hbody) h

/-! ## Selectors and steps -/

theorem advances_selectorDollar : (State.selectorDollar place).Advances := by
  intro limit ws t s' hws h
  simp only [State.step] at h
  split at h
  all_goals rename_i hkind
  · obtain rfl := eq_of_go h
    exact taken hws hkind (le_of_eq (mul_assoc _ _ _))
  · exact (not_of_refuse h).elim

theorem advances_selectorDone {s : Selector} : (State.selectorDone s place).Advances := by
  rintro limit _ t s' ⟨us, hus, vs, hvs, rfl⟩ h
  exact SelectorHole.resume_front hus hvs h

theorem advances_nodeNameDue : (State.nodeNameDue path place).Advances := by
  intro limit ws t s' hws h
  simp only [State.step] at h
  split at h
  all_goals rename_i hkind
  · obtain rfl := eq_of_go h
    exact snoc_mem hws (word_mem_name hkind) (le_of_eq (by simp [State.front, mark, mul_assoc]))
  · obtain rfl := eq_of_go h
    have hfront : (State.stepName ⟨true, ⟨none, .wildcard⟩⟩ path place).front =
        place.front * path.front * StepHead.texts ⟨true, ⟨none, .wildcard⟩⟩ := rfl
    refine taken hws hkind ?_
    rw [hfront]
    grw [← wildcard_le]
    simp [State.front, mark, mul_assoc]
  · exact (not_of_refuse h).elim

theorem qualifiedName_le {q : String} :
    name q * (symbol .colon * name x) ≤ text .name ⟨some q, .name x⟩ := by
  simp only [mul_le_iff, Language.mem_mul]
  rintro _ rfl _ ⟨_, ⟨p, rfl⟩, _, rfl, rfl⟩
  exact ⟨0, .qualifiedName⟩

theorem qualifiedWildcard_le {q : String} :
    name q * (symbol .colon * symbol .star) ≤ text .name ⟨some q, .wildcard⟩ := by
  simp only [mul_le_iff, Language.mem_mul]
  rintro _ rfl _ ⟨_, ⟨p, rfl⟩, _, ⟨r, rfl⟩, rfl⟩
  exact ⟨0, .qualifiedWildcard⟩

theorem advances_localNameDue : (State.localNameDue isAttribute x path place).Advances := by
  intro limit ws t s' hws h
  simp only [State.step] at h
  split at h
  all_goals rename_i hkind
  · obtain rfl := eq_of_go h
    refine snoc_mem hws (word_mem_name hkind) ?_
    simp only [State.front, StepHead.texts, mul_assoc]
    grw [qualifiedName_le]
  · obtain rfl := eq_of_go h
    refine taken hws hkind ?_
    simp only [State.front, StepHead.texts, mul_assoc]
    grw [qualifiedWildcard_le]
  · exact (not_of_refuse h).elim

/-! ## Predicates -/

variable {f : Filter} {i : Index} {t : Token}

theorem one_le_noFilter : 1 ≤ text .filter .empty := by
  rintro _ rfl
  exact ⟨0, .noFilter⟩

theorem word_mem_indexNumber (ht : t.kind = .number)
    (hi : Decimal.Integer.ofText? t.text = some i) : [t.word] ∈ indexNumber i :=
  ⟨t.text, by rw [Token.word, ht], hi⟩

theorem indexText_le : indexText i ≤ text .predicate (.index i) := by
  simp only [indexText, mul_assoc, mul_le_iff, Language.mem_mul]
  rintro _ ⟨p, rfl⟩ _ ⟨_, ⟨x, rfl, hx⟩, _, ⟨q, rfl⟩, rfl⟩
  exact ⟨0, .index hx⟩

theorem indexText_le_firstBrackets :
    indexText i ≤ firstBrackets (.operator (.constant (.number (.ofInt i.toInt)))) :=
  fun _ h => .inr ⟨i, rfl, h⟩

theorem filterText_le : filterText f ≤ text .predicate (.filter f) := by
  simp only [filterText, mul_assoc, mul_le_iff, Language.mem_mul]
  rintro _ ⟨p, rfl⟩ _ ⟨us, ⟨n, hus⟩, _, ⟨q, rfl⟩, rfl⟩
  exact ⟨n, .filtered hus⟩

theorem filterText_le_firstBrackets : filterText f ≤ firstBrackets f :=
  fun _ h => .inl h

/-- An index after the first brackets. -/
theorem secondIndex_le : firstBrackets f * (symbol .leftBracket * (indexNumber i *
    symbol .rightBracket)) ≤ text .predicate (.filterThenIndex f i) := by
  simp only [mul_le_iff, Language.mem_mul]
  rintro _ (h | ⟨j, rfl, h⟩) _ ⟨_, ⟨r, rfl⟩, _, ⟨_, ⟨y, rfl, hy⟩, _, ⟨u, rfl⟩, rfl⟩, rfl⟩
  · obtain ⟨_, ⟨_, ⟨p, rfl⟩, us, ⟨n, hus⟩, rfl⟩, _, ⟨q, rfl⟩, rfl⟩ := h
    have := Derives.filteredIndex (p := p) (q := q) (r := r) (u := u) hus hy
    exact ⟨n, by simpa using this⟩
  · obtain ⟨_, ⟨_, ⟨p, rfl⟩, _, ⟨x, rfl, hx⟩, rfl⟩, _, ⟨q, rfl⟩, rfl⟩ := h
    exact ⟨0, .doubleIndex hx hy⟩

theorem advances_bracket : (State.bracket head path place).Advances := by
  intro limit ws t s' hws h
  simp only [State.step] at h
  split at h
  · rename_i hkind
    obtain rfl := eq_of_go h
    refine taken hws hkind ?_
    simp only [State.front, filterText, mul_assoc]
    grw [← one_le_noFilter, one_mul]
  · split at h
    · rename_i hwhole
      obtain rfl := eq_of_go h
      exact Language.append_mem_mul hws ⟨rfl, hwhole⟩
    · rename_i hwhole
      have hfront : ws ∈ (ExprHole.filter head path place).front := hws
      have hempty : [] ∈ Chain.empty.front := Chain.front_empty ▸ Language.nil_mem_one
      have := beginOperand_front hfront hempty (fun h => absurd h hwhole) (of_within h)
      simpa using this

theorem advances_bracketNumber : (State.bracketNumber t head path place).Advances := by
  rintro limit _ u s' ⟨us, hus, _, ⟨rfl, hwhole⟩, rfl⟩ h
  simp only [State.step] at h
  split at h
  · rename_i hkind
    split at h
    · rename_i i hi
      obtain rfl := eq_of_go h
      have hnumber : t.kind = .number := Word.kind_of_isWhole (w := t.word) hwhole
      have hindex := word_mem_indexNumber hnumber hi
      refine taken (Language.append_mem_mul hus hindex) hkind (le_of_eq ?_)
      simp only [State.front, indexText, mul_assoc]
    · cases h
  · rename_i hkind
    replace h := of_within h
    split at h
    · rename_i a ha
      have hfront : us ∈ (ExprHole.filter head path place).front := hus
      have hoperand : [t.word] ∈ Chain.empty.front * text (.phrase .primary) (.constant a) := by
        rw [Chain.front_empty, one_mul]
        exact constant_mem ha
      exact afterOperand_front hfront hoperand (fun hclose => absurd hclose hkind) h
    · cases h

theorem advances_indexed : (State.indexed i head path place).Advances := by
  intro limit ws t s' hws h
  simp only [State.step] at h
  split at h
  · rename_i hkind
    obtain rfl := eq_of_go h
    refine taken hws hkind ?_
    simp only [State.front, mul_assoc]
    grw [indexText_le_firstBrackets]
  · exact afterPredicate_front indexText_le hws h

theorem advances_filtered : (State.filtered f head path place).Advances := by
  intro limit ws t s' hws h
  simp only [State.step] at h
  split at h
  · rename_i hkind
    obtain rfl := eq_of_go h
    refine taken hws hkind ?_
    simp only [State.front, mul_assoc]
    grw [filterText_le_firstBrackets]
  · exact afterPredicate_front filterText_le hws h

theorem advances_secondBracket : (State.secondBracket f head path place).Advances := by
  intro limit ws t s' hws h
  simp only [State.step] at h
  split at h
  · rename_i hkind
    split at h
    · rename_i i hi
      obtain rfl := eq_of_go h
      refine snoc_mem hws (word_mem_indexNumber hkind hi) (le_of_eq ?_)
      simp only [State.front, mul_assoc]
    · exact (not_of_refuse h).elim
  · exact (not_of_refuse h).elim

theorem advances_secondIndex : (State.secondIndex f i head path place).Advances := by
  intro limit ws t s' hws h
  simp only [State.step] at h
  split at h
  · rename_i hkind
    obtain rfl := eq_of_go h
    refine taken hws hkind ?_
    rw [State.front, State.front]
    grw [← stepDone_le, ← secondIndex_le]
    simp only [mul_assoc]
    rfl
  · exact (not_of_refuse h).elim

/-! ## Runs -/

theorem advances_accepted {parsed : Parsed} : (State.accepted parsed).Advances := by
  intro limit ws t s' hws h
  obtain rfl := eq_of_go h
  obtain ⟨us, hus, _, ⟨vs, hvs, rest, -, rfl⟩, rfl⟩ := hws
  simp only [List.append_assoc]
  exact Language.append_mem_mul hus (Language.append_mem_mul hvs trivial)

theorem State.advances (s : State) : s.Advances := by
  cases s with
  | expressionDue hole => exact advances_expressionDue
  | operandDue c hole => exact advances_operandDue
  | dollar c hole => exact advances_dollar
  | dollarName x c hole => exact advances_dollarName
  | leadingName x c hole => exact advances_leadingName
  | callOpened withDollar x c hole => exact advances_callOpened
  | operandDone e c hole => exact advances_operandDone
  | scopedDue hole => exact fun hws h => beginSelector_front hws (of_within h)
  | selectorDue hole => exact fun hws h => beginSelector_front hws h
  | selectorDollar hole => exact advances_selectorDollar
  | selectorDone s hole => exact advances_selectorDone
  | stepDue path hole => exact fun hws h => beginStep_front hws h
  | nodeNameDue path hole => exact advances_nodeNameDue
  | firstName isAttribute x path hole => exact fun hws h => afterFirstName_front hws h
  | localNameDue isAttribute q path hole => exact advances_localNameDue
  | stepName head path hole => exact fun hws h => afterStepName_front hws h
  | bracket head path hole => exact advances_bracket
  | bracketNumber number head path hole => exact advances_bracketNumber
  | indexed i head path hole => exact advances_indexed
  | filtered f head path hole => exact advances_filtered
  | secondBracket f head path hole => exact advances_secondBracket
  | secondIndex f i head path hole => exact advances_secondIndex
  | stepDone path hole => exact fun hws h => afterStep_front hws h
  | accepted parsed => exact advances_accepted

theorem State.run_front {limit : Nat} {ws : List Word} {s s' : State} {ts : List Token}
    (hws : ws ∈ s.front) (h : s.run limit ts = .ok s') : ws ++ ts.map Token.word ∈ s'.front := by
  induction ts generalizing s ws with
  | nil =>
    obtain rfl := eq_of_go h
    simpa using hws
  | cons t ts ih =>
    rw [State.run_cons] at h
    cases hstep : (s.step limit t).value with
    | error e =>
      rw [hstep] at h
      cases h
    | ok s₁ =>
      rw [hstep] at h
      have := ih (s.advances hws hstep) h
      rwa [List.append_assoc] at this

/-- The words of an accepted text are a text of its expression. -/
theorem derives_of_accepted {limit : Nat} {ts : List Token} {stop : Nat} {parsed : Parsed}
    (hts : ∀ t ∈ ts, t.kind ≠ .eof)
    (h : start.run limit (ts ++ [.eof stop]) = .ok (.accepted parsed)) :
    ∃ n, Derives .expression (ts.map Token.word) parsed.root n := by
  have hroot : [] ∈ ExprHole.root.front := Language.nil_mem_one
  have hstart : [] ∈ start.front := expressionDue_mem hroot rfl
  obtain ⟨us, hus, _, ⟨_, ⟨p, rfl⟩, vs, -, rfl⟩, hwords⟩ := State.run_front hstart h
  have hwords : us ++ [⟨.eof, p⟩] ++ vs = ts.map Token.word ++ [(Token.eof stop).word] := by
    simpa using hwords
  obtain rfl | ⟨vs, v, rfl⟩ := vs.eq_nil_or_concat'
  · rw [List.append_nil] at hwords
    obtain ⟨rfl, -⟩ := List.append_inj' hwords rfl
    exact hus
  · -- an end marker before the last word would be one of the tokens
    rw [← List.append_assoc] at hwords
    obtain ⟨hfront, -⟩ := List.append_inj' hwords rfl
    have heof : (⟨.eof, p⟩ : Word) ∈ ts.map Token.word := by simp [← hfront]
    obtain ⟨t, ht, hword⟩ := List.mem_map.1 heof
    exact absurd (congrArg Word.kind hword) (hts t ht)

end MapExpr.Parse
