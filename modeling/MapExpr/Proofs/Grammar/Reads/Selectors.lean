import MapExpr.Proofs.Grammar.Reads.Operands

/-!
# Reading selectors

The rules of the grammar for selectors, steps and predicates, each as a lemma about runs. A whole
number in brackets is kept until the next token tells whether it is an index or the beginning of a
filter.

* `takes_identifier`: a name that may be a name or a qualifier;
* `leads_index`, `leads_secondIndex`: an index in the first and in the second brackets;
* `run_bracket`: brackets that hold an expression.
-/

namespace MapExpr

open Word (optional)
open Parse

namespace Grammar.Category

variable {ws us : List Word} {m n : Nat} {p q r u x : String} {s : Selector} {t : Step}
  {ts : List Step}

/-! ## Selectors -/

theorem reads_selected (h : Reads .selector ws s n) :
    Reads (.phrase .primary) ws (.selector s) n := by
  intro c hole _
  refine (h _ (.operand c hole) (.operand c hole)).agree (fun limit t ht => ?_) (by decide)
  have hpipe : t.kind ≠ .pipe := Kind.ne_of_joins_lt ht (by decide)
  simp only [State.step, SelectorHole.resume, hpipe, and_false, ↓reduceIte]

theorem ne_nil_of_reads_selector (h : Reads .selector ws s n) : ws ≠ [] := by
  rintro rfl
  let hole : SelectorHole := .scoped (.operand .empty .root)
  obtain ⟨s₁, hrun, hagree⟩ := (h _ hole (.due hole)).reads (Nat.le_refl _) List.map_nil
  obtain rfl := Except.ok.inj hrun
  cases hagree ⟨.rightParen, "", 0⟩ (by decide)

/-- A selector does not begin with a number. -/
theorem head_of_reads_selector {w : Word} (h : Reads .selector (w :: ws) s n) :
    w.kind ≠ .number := by
  obtain ⟨kind, text⟩ := w
  rintro rfl
  obtain ⟨s₁, hrun, -⟩ := (h _ (.operand .empty .root) (.due _)).reads (Nat.le_refl _)
    (Word.map_word_token (⟨.number, text⟩ :: ws))
  rw [List.map_cons, State.run_cons] at hrun
  cases hrun

theorem reads_scopedSelector (h : Reads .selector ws s n) :
    Reads .selector (⟨.dollar, p⟩ :: ⟨.leftParen, q⟩ :: (ws ++ [⟨.rightParen, r⟩])) (.scoped s)
      (n + 1) := by
  intro s₀ hole hbegins
  have hinner : Leads hole.depth (n + 1) 7 (.scopedDue (.scoped hole)) ws
      (.selectorDone s (.scoped hole)) :=
    Leads.enter (h _ (.scoped hole) (.due _)) (ne_nil_of_reads_selector h) fun _ _ => rfl
  have hparen : Leads hole.depth (n + 1) 7 (.scopedDue (.scoped hole)) (ws ++ [⟨.rightParen, r⟩])
      (.selectorDone (.scoped s) hole) :=
    hinner.snoc (fun _ _ => rfl) (show 0 < 7 by decide)
  cases hbegins with
  | due =>
    have hdollar : Leads hole.depth (n + 1) 7 (.selectorDollar hole)
        (⟨.leftParen, q⟩ :: (ws ++ [⟨.rightParen, r⟩])) (.selectorDone (.scoped s) hole) :=
      .cons (fun _ _ => rfl) hparen
    exact .cons (fun _ _ => rfl) hdollar
  | operand c outer =>
    have hdollar : Leads outer.depth (n + 1) 7 (.dollar c outer)
        (⟨.leftParen, q⟩ :: (ws ++ [⟨.rightParen, r⟩]))
        (.selectorDone (.scoped s) (.operand c outer)) :=
      .cons (fun _ _ => rfl) hparen
    exact .cons (fun _ _ => rfl) hdollar

theorem reads_path {absolute : Bool} (h : Reads .steps ws ts n) :
    Reads .selector (optional absolute ⟨.slash, p⟩ ++ ws) (.steps absolute ts) n := by
  intro s₀ hole hbegins
  have hsteps : Leads hole.depth n 8 s₀ (optional absolute ⟨.slash, p⟩ ++ ws)
      (.stepDone ⟨absolute, ts.reverse⟩ hole) := by
    cases absolute with
    | false => exact h s₀ false hole (.first hbegins)
    | true =>
      refine .cons ?_ (h _ true hole (.due _ hole))
      cases hbegins <;> exact fun _ _ => rfl
  refine hsteps.agree (fun limit t ht => ?_) (by decide)
  have hslash : t.kind ≠ .slash := Kind.ne_of_joins_lt ht (by decide)
  simp only [State.step, afterStep, Path.toSelector, List.reverse_reverse]

theorem reads_firstStep (h : Reads .step ws t n) : Reads .steps ws [t] n :=
  fun s₀ absolute hole hbegins => h s₀ ⟨absolute, []⟩ hole hbegins

theorem reads_nextStep (hts : Reads .steps ws ts m) (h : Reads .step us t n) :
    Reads .steps (ws ++ ⟨.slash, p⟩ :: us) (ts ++ [t]) (max m n) := by
  intro s₀ absolute hole hbegins
  have hstep := h _ ⟨absolute, ts.reverse⟩ hole (.due _ hole)
  rw [List.reverse_append]
  exact (hts s₀ absolute hole hbegins).join (fun _ _ => rfl) hstep (show 7 < 8 by decide)
    (by decide)

/-! ## Steps -/

theorem reads_current : Reads .step [⟨.dot, p⟩] .current 0 := by
  rintro s₀ path hole (_ | ⟨_ | _⟩) <;> exact .word fun _ _ => rfl

theorem reads_parent : Reads .step [⟨.dotDot, p⟩] .parent 0 := by
  rintro s₀ path hole (_ | ⟨_ | _⟩) <;> exact .word fun _ _ => rfl

theorem reads_named {isAttribute : Bool} {y : QName} {z : Predicate} (hname : Reads .name ws y m)
    (hpred : Reads .predicate us z n) :
    Reads .step (optional isAttribute ⟨.atSign, p⟩ ++ ws ++ us) (.named isAttribute y z)
      (max m n) := by
  intro s₀ path hole hbegins
  have hhead : Leads hole.depth m 9 s₀ (optional isAttribute ⟨.atSign, p⟩ ++ ws)
      (.stepName ⟨isAttribute, y⟩ path hole) := by
    cases isAttribute with
    | false => exact hname false s₀ path hole (.child hbegins)
    | true =>
      refine .cons ?_ (hname true _ path hole (.attribute path hole))
      rcases hbegins with _ | ⟨_ | _⟩ <;> exact fun _ _ => rfl
  refine hhead.trans (hpred.2 ⟨isAttribute, y⟩ path hole) (by decide) fun u hu => ?_
  rw [hpred.1 u hu]
  decide

/-- The name at the beginning of a step may be all of its name, or a qualifier. -/
theorem takes_identifier {isAttribute : Bool} {s₀ : State} {path : Path} {hole : SelectorHole}
    (h : NameBegins isAttribute s₀ path hole) (x : String) : ∃ s₁,
    Takes s₀ ⟨.identifier, x⟩ s₁ ∧
      (∀ p, Takes s₁ ⟨.colon, p⟩ (.localNameDue isAttribute x path hole)) ∧
      ∀ limit, Agree limit 9 s₁ (.stepName ⟨isAttribute, ⟨none, .name x⟩⟩ path hole) := by
  have hagree : ∀ limit isAttribute (path : Path) hole, Agree limit 9
      (.firstName isAttribute x path hole)
      (.stepName ⟨isAttribute, ⟨none, .name x⟩⟩ path hole) := by
    intro limit isAttribute path hole t ht
    have hcolon : t.kind ≠ .colon := Kind.ne_of_joins_lt ht (by decide)
    simp only [State.step, afterFirstName]
    rfl
  rcases h with (_ | ⟨_ | ⟨c, outer⟩⟩) | _
  · exact ⟨.firstName false x path hole, fun _ _ => rfl, fun _ _ _ => rfl, fun _ => hagree _ _ _ _⟩
  · exact ⟨.firstName false x ⟨false, []⟩ hole, fun _ _ => rfl, fun _ _ _ => rfl,
      fun _ => hagree _ _ _ _⟩
  · refine ⟨.leadingName x c outer, fun _ _ => rfl, fun _ _ _ => rfl, fun limit t ht => ?_⟩
    have hparen : t.kind ≠ .leftParen := Kind.ne_of_joins_lt ht (by decide)
    rw [← hagree limit false _ _ t ht]
    simp only [State.step]
  · exact ⟨.firstName true x path hole, fun _ _ => rfl, fun _ _ _ => rfl, fun _ => hagree _ _ _ _⟩

theorem reads_plainName : Reads .name [⟨.identifier, x⟩] ⟨none, .name x⟩ 0 := by
  intro isAttribute s₀ path hole hbegins
  obtain ⟨s₁, htakes, -, hagree⟩ := takes_identifier hbegins x
  exact (Leads.word (k := 9) htakes).agree hagree (by decide)

theorem reads_plainWildcard : Reads .name [⟨.star, p⟩] ⟨none, .wildcard⟩ 0 := by
  rintro isAttribute s₀ path hole ((_ | ⟨_ | _⟩) | _) <;> exact .word fun _ _ => rfl

theorem reads_qualifiedName :
    Reads .name [⟨.identifier, u⟩, ⟨.colon, p⟩, ⟨.identifier, x⟩] ⟨some u, .name x⟩ 0 := by
  intro isAttribute s₀ path hole hbegins
  obtain ⟨s₁, htakes, hcolon, -⟩ := takes_identifier hbegins u
  exact .cons htakes (.cons (hcolon p) (.word fun _ _ => rfl))

theorem reads_qualifiedWildcard :
    Reads .name [⟨.identifier, u⟩, ⟨.colon, p⟩, ⟨.star, q⟩] ⟨some u, .wildcard⟩ 0 := by
  intro isAttribute s₀ path hole hbegins
  obtain ⟨s₁, htakes, hcolon, -⟩ := takes_identifier hbegins u
  exact .cons htakes (.cons (hcolon p) (.word fun _ _ => rfl))

/-! ## Predicates -/

variable {head : StepHead} {path : Path} {hole : SelectorHole} {f : Filter} {i j : Index}
  {b k : Nat}

/-- A number in the first brackets is an index if nothing follows it. -/
theorem leads_index (h : Decimal.Integer.ofText? x = some i) :
    Leads b 0 k (.bracket head path hole) [⟨.number, x⟩, ⟨.rightBracket, p⟩]
      (.indexed i head path hole) where
  reads {limit ts} _ hts := by
    obtain ⟨t, us, rfl, ht, hus⟩ := List.map_eq_cons_iff.1 hts
    obtain ⟨u, rfl, hu⟩ := List.map_eq_singleton_iff.1 hus
    have hwhole : t.isWhole = true := by
      rw [← Token.isWhole_word, ht, Word.isWhole_of_ofText? h]
    obtain ⟨kind, text, start⟩ := t
    obtain ⟨kind', text', start'⟩ := u
    cases ht
    cases hu
    refine ⟨_, ?_, .refl _⟩
    simp only [State.run_cons, State.step, hwhole, ↓reduceIte]
    rw [Outcome.bind_go]
    simp only [h]
    rfl
  refuses _ _ _ := by omega

/-- The second brackets of a step hold an index. -/
theorem leads_secondIndex {s : State} (h : Decimal.Integer.ofText? x = some i)
    (hs : Takes s ⟨.leftBracket, r⟩ (.secondBracket f head path hole)) :
    Leads b 0 k s [⟨.leftBracket, r⟩, ⟨.number, x⟩, ⟨.rightBracket, u⟩]
      (.stepDone (path.push (head.toStep (.filterThenIndex f i))) hole) := by
  have hnumber : Takes (.secondBracket f head path hole) ⟨.number, x⟩
      (.secondIndex f i head path hole) := by
    intro limit start
    simp only [State.step, h]
    rfl
  exact .cons hs (.cons hnumber (.word fun _ _ => rfl))

theorem reads_absent : Reads .predicate [] .absent 0 := by
  refine ⟨by simp, fun head path hole => ?_⟩
  refine (Leads.refl (k := 9) _).agree (fun limit t ht => ?_) (by decide)
  have hbracket : t.kind ≠ .leftBracket := Kind.ne_of_joins_lt ht (by decide)
  simp only [State.step, afterStepName]

theorem reads_index (h : Decimal.Integer.ofText? x = some i) :
    Reads .predicate [⟨.leftBracket, p⟩, ⟨.number, x⟩, ⟨.rightBracket, q⟩] (.index i) 0 := by
  refine ⟨by simp, fun head path hole => ?_⟩
  have hrun : Leads hole.depth 0 9 (.stepName head path hole)
      [⟨.leftBracket, p⟩, ⟨.number, x⟩, ⟨.rightBracket, q⟩] (.indexed i head path hole) :=
    .cons (fun _ _ => rfl) (leads_index h)
  refine hrun.agree (fun limit t ht => ?_) (by decide)
  have hbracket : t.kind ≠ .leftBracket := Kind.ne_of_joins_lt ht (by decide)
  simp only [State.step]

theorem reads_filtered (h : Reads .filter ws f n) :
    Reads .predicate (⟨.leftBracket, p⟩ :: (ws ++ [⟨.rightBracket, q⟩])) (.filter f) n := by
  refine ⟨by simp, fun head path hole => ?_⟩
  refine (Leads.cons (fun _ _ => rfl) (h q head path hole)).agree (fun limit t ht => ?_) (by decide)
  have hbracket : t.kind ≠ .leftBracket := Kind.ne_of_joins_lt ht (by decide)
  simp only [State.step]

theorem reads_filteredIndex (h : Reads .filter ws f n) (hi : Decimal.Integer.ofText? x = some i) :
    Reads .predicate (⟨.leftBracket, p⟩ :: (ws ++ [⟨.rightBracket, q⟩, ⟨.leftBracket, r⟩,
      ⟨.number, x⟩, ⟨.rightBracket, u⟩])) (.filterThenIndex f i) n := by
  refine ⟨by simp, fun head path hole => .cons (fun _ _ => rfl) ?_⟩
  have hindex : Leads hole.depth 0 8 (.filtered f head path hole)
      [⟨.leftBracket, r⟩, ⟨.number, x⟩, ⟨.rightBracket, u⟩]
      (.stepDone (path.push (head.toStep (.filterThenIndex f i))) hole) :=
    leads_secondIndex hi fun _ _ => rfl
  rw [List.append_cons ws, ← Nat.max_zero n]
  refine (h q head path hole).trans hindex (by decide) fun u hu => ?_
  obtain rfl := Option.some.inj hu
  exact show 8 < 10 by decide

theorem reads_doubleIndex {y z : String} (hi : Decimal.Integer.ofText? x = some i)
    (hj : Decimal.Integer.ofText? y = some j) :
    Reads .predicate [⟨.leftBracket, p⟩, ⟨.number, x⟩, ⟨.rightBracket, q⟩, ⟨.leftBracket, r⟩,
      ⟨.number, y⟩, ⟨.rightBracket, z⟩]
      (.filterThenIndex (.operator (.constant (.number (.ofInt i.toInt)))) j) 0 := by
  refine ⟨by simp, fun head path hole => .cons (fun _ _ => rfl) ?_⟩
  have hindex : Leads hole.depth 0 8 (.indexed i head path hole)
      [⟨.leftBracket, r⟩, ⟨.number, y⟩, ⟨.rightBracket, z⟩]
      (.stepDone (path.push (head.toStep (.filterThenIndex
        (.operator (.constant (.number (.ofInt i.toInt)))) j))) hole) :=
    leads_secondIndex hj fun _ _ => rfl
  refine (leads_index (k := 9) hi).trans hindex (by decide) fun u hu => ?_
  obtain rfl := Option.some.inj hu
  exact show 8 < 9 by decide

theorem reads_noFilter : Reads .filter [] .empty 0 :=
  fun _ _ _ _ => .word fun _ _ => rfl

/-- A number without a point that is followed by anything but a closing bracket is an operand. -/
theorem run_bracketNumber {limit : Nat} {t u : Token} {us : List Token} (ht : t.kind = .number)
    (hu : u.kind ≠ .rightBracket) :
    (State.bracketNumber t head path hole).run limit (u :: us) =
      (State.expressionDue (.filter head path hole)).run limit (t :: u :: us) := by
  rw [State.run_cons, State.run_cons]
  cases hconstant : constant? t with
  | none =>
    simp only [State.step, beginExpression, beginOperand, ht, beginConstant, hconstant,
      Outcome.within]
    split <;> rfl
  | some c =>
    simp only [State.step, beginExpression, beginOperand, ht, beginConstant, hconstant,
      Outcome.within]
    split
    · rfl
    · show _ = (State.operandDone (.constant c) .empty (.filter head path hole)).run limit (u :: us)
      rw [State.run_cons]
      rfl

/-- In brackets that hold an expression, a leading number is kept until the next token. -/
theorem run_bracket {e : Expr} {limit : Nat} {ts : List Token} (h : Reads .expression ws e n)
    (hlone : ∀ w, ws = [w] → w.isWhole = false) (hts : ts.map Token.word = ws) :
    (State.bracket head path hole).run limit ts =
      (State.expressionDue (.filter head path hole)).run limit ts := by
  obtain ⟨t, us, rfl⟩ := List.exists_cons_of_ne_nil (l := ts)
    fun hnil => ne_nil_of_reads h (by simp [← hts, hnil])
  subst hts
  have hclose : t.kind ≠ .rightBracket := (head_of_reads h).2
  have hstep : (State.bracket head path hole).step limit t =
      if t.isWhole then Outcome.go (.bracketNumber t head path hole)
      else (State.expressionDue (.filter head path hole)).step limit t := by
    simp only [State.step]
  rw [State.run_cons, hstep]
  split
  · rename_i hwhole
    obtain ⟨u, us, rfl⟩ := List.exists_cons_of_ne_nil (l := us)
      fun hnil => absurd (hlone t.word (by simp [hnil])) (by simp [hwhole])
    have hnumber : t.kind = .number := Word.kind_of_isWhole (w := t.word) hwhole
    exact run_bracketNumber hnumber (second_of_reads h hnumber)
  · exact State.run_cons.symm

theorem reads_someFilter {e : Expr} (h : Reads .expression ws e n)
    (hlone : ∀ w, ws = [w] → w.isWhole = false) :
    Reads .filter ws (.ofExpr e) (n + filterCost) := by
  intro p head path hole
  have hdue : Leads hole.depth (n + filterCost) 1 (.expressionDue (.filter head path hole)) ws
      (.operandDone e .empty (.filter head path hole)) := leads_expressionDue h rfl
  exact (hdue.of_run_eq (run_bracket h hlone)).snoc (fun _ _ => rfl) (show 0 < 1 by decide)

end Grammar.Category

end MapExpr
