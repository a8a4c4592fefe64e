import MapExpr.Proofs.Grammar.Complete
import MapExpr.Proofs.Print.Words

/-!
# Printed expressions are derived

The words of a well-formed expression derive that expression, with its own nesting, if its numbers
are finite.

* `Expr.IsDerived`: what is shown of an expression by induction;
* `Expr.isDerived`: that it holds of well-formed expressions with finite numbers;
* `Expr.derives_print`: so their texts derive them.
-/

namespace MapExpr

open Grammar (Level Category Derives)
open Piece (wordsOf)
open Word (row)

/-! ## Expressions -/

/-- The words of `e` derive `e`, also as an operand of the levels up to its own. -/
def Expr.IsDerived (e : Expr) : Prop :=
  Derives .expression (wordsOf e.pieces) e e.nesting ∧
    ∀ ℓ : Level, ℓ.strength ≤ e.strength → Derives (.phrase ℓ) (wordsOf e.pieces) e e.nesting

theorem Expr.IsDerived.of_phrase {e : Expr} (ℓ : Level) (hℓ : e.strength = ℓ.strength)
    (h : Derives (.phrase ℓ) (wordsOf e.pieces) e e.nesting) : e.IsDerived := by
  refine ⟨.whole (.lift ?_ h), fun k hk => .lift (hℓ ▸ hk) h⟩
  cases ℓ <;> decide

variable {es : List Expr}

theorem Expr.derives_disjuncts (hne : es ≠ []) (h : ∀ e ∈ es, 2 ≤ e.strength ∧ e.IsDerived) :
    Derives .disjuncts (row .orWord (es.map fun e => wordsOf e.pieces)) es
      (Expr.allNesting es) := by
  rw [Expr.allNesting_eq]
  have hphrase := fun e he => (h e he).2.2 .and (h e he).1
  exact Derives.row (Derives .disjuncts) _ (fun e he => .firstDisjunct (hphrase e he))
    (fun e he => fun hdone => .nextDisjunct hdone (hphrase e he)) hne

theorem Expr.derives_conjuncts (hne : es ≠ []) (h : ∀ e ∈ es, 3 ≤ e.strength ∧ e.IsDerived) :
    Derives .conjuncts (row .andWord (es.map fun e => wordsOf e.pieces)) es
      (Expr.allNesting es) := by
  rw [Expr.allNesting_eq]
  have hphrase := fun e he => (h e he).2.2 .comparison (h e he).1
  exact Derives.row (Derives .conjuncts) _ (fun e he => .firstConjunct (hphrase e he))
    (fun e he => fun hdone => .nextConjunct hdone (hphrase e he)) hne

theorem Expr.derives_terms {e : Expr} {es : List (AdditiveOp × Expr)}
    (he : 5 ≤ e.strength ∧ e.IsDerived) (h : ∀ p ∈ es, 5 ≤ p.2.strength ∧ p.2.IsDerived) :
    Derives .terms (wordsOf (Expr.additive e es).pieces) (e, es)
      (max e.nesting (Expr.sumNesting es)) := by
  rw [Expr.wordsOf_additive, Expr.sumNesting_eq]
  have hphrase := fun p hp => (h p hp).2.2 .multiplicative (h p hp).1
  exact Derives.grow (fun ws es => Derives .terms ws (e, es)) _
    (fun p hp => fun hdone => .nextTerm hdone (hphrase p hp)) (.firstTerm (he.2.2 _ he.1))

theorem Expr.derives_factors {e : Expr} {es : List (MultiplicativeOp × Expr)}
    (he : 6 ≤ e.strength ∧ e.IsDerived) (h : ∀ p ∈ es, 6 ≤ p.2.strength ∧ p.2.IsDerived) :
    Derives .factors (wordsOf (Expr.multiplicative e es).pieces) (e, es)
      (max e.nesting (Expr.productNesting es)) := by
  rw [Expr.wordsOf_multiplicative, Expr.productNesting_eq]
  have hphrase := fun p hp => (h p hp).2.2 .primary (h p hp).1
  exact Derives.grow (fun ws es => Derives .factors ws (e, es)) _
    (fun p hp => fun hdone => .nextFactor hdone (hphrase p hp)) (.firstFactor (he.2.2 _ he.1))

theorem Expr.derives_arguments (hne : es ≠ []) (h : ∀ e ∈ es, e.IsDerived) :
    Derives .arguments (row .comma (es.map fun e => wordsOf e.pieces)) es
      (Expr.argumentNesting es) := by
  rw [Expr.argumentNesting_eq]
  exact Derives.row (Derives .arguments) _ (fun e he => .firstArgument (h e he).1)
    (fun e he => fun hdone => .nextArgument hdone (h e he).1) hne

theorem Selector.derives_members {ss : List Selector} (hne : ss ≠ [])
    (h : ∀ s ∈ ss, Derives .selector (wordsOf s.pieces) s s.nesting) :
    Derives .members (row .pipe (ss.map fun s => wordsOf s.pieces)) ss
      (Selector.allNesting ss) := by
  rw [Selector.allNesting_eq]
  exact Derives.row (Derives .members) _ (fun s hs => .firstMember (h s hs))
    (fun s hs => fun hdone => .nextMember hdone (h s hs)) hne

theorem Step.derives_steps {ss : List Step} (hne : ss ≠ [])
    (h : ∀ s ∈ ss, Derives .step (wordsOf s.pieces) s s.nesting) :
    Derives .steps (row .slash (ss.map fun s => wordsOf s.pieces)) ss
      (Step.allNesting ss) := by
  rw [Step.allNesting_eq]
  exact Derives.row (Derives .steps) _ (fun s hs => .firstStep (h s hs))
    (fun s hs => fun hdone => .nextStep hdone (h s hs)) hne

/-! ## Constants, names and filters -/

/-- Only a number without places is written without a point. -/
theorem Binary64.Spells.contains_point {x : Binary64} {places : Nat} {text : String}
    (h : x.Spells places text) (hplaces : places ≠ 0) : text.contains '.' = true := by
  obtain ⟨n, rfl, -⟩ := h
  rw [String.contains_char_eq, String.toList_ofList, decide_eq_true_eq]
  exact Decimal.point_mem_numeral.2 hplaces

theorem Constant.isDerived {c : Constant} (hfinite : ∀ x ∈ c.numbers, x.isFinite = true) :
    (Expr.constant c).IsDerived := by
  refine .of_phrase .primary rfl ?_
  cases c with
  | number x =>
    obtain ⟨places, hspells, -⟩ := Binary64.toText_spells (hfinite x (by simp [numbers]))
    obtain ⟨d, hread, rfl⟩ := hspells.ofText?
    rw [Expr.pieces, piece, hspells.wordsOf_token]
    exact .number hread
  | system => exact .system
  | literal contents =>
    have hderives : Derives (.phrase .primary) [⟨.literal, quoted contents⟩]
        (.constant (.literal (Parse.unquoted (quoted contents)))) 0 := .literal
    rw [Token.unquoted_quoted] at hderives
    exact hderives

theorem QName.derives (x : QName) : Derives .name (wordsOf x.pieces) x 0 := by
  obtain ⟨qualifier, x⟩ := x
  cases qualifier <;> cases x
  · exact .plainWildcard
  · exact .plainName
  · exact .qualifiedWildcard
  · exact .qualifiedName

/-- A numeral is an expression of its own. -/
theorem Grammar.Derives.of_numeral {text : String} {d : Decimal}
    (h : Decimal.ofText? text = some d) :
    Derives .expression [⟨.number, text⟩] (.constant (.number (.ofDecimal d))) 0 :=
  .of_primary (.number h)

/-- A body that is no number is not one whole number on the page. -/
theorem Filter.derives_body {e : Expr} (hnumber : ∀ x, e ≠ .constant (.number x))
    (he : e.IsDerived) :
    Derives .filter (wordsOf e.pieces) (.ofExpr e) (e.nesting + Parse.filterCost) := by
  refine .someFilter he.1 fun w hw => ?_
  rw [← Bool.not_eq_true]
  intro hwhole
  have hkind : w.kind = .number := Word.kind_of_isWhole hwhole
  obtain ⟨d, hread⟩ := Option.isSome_iff_exists.1
    (Piece.isSome_of_mem_wordsOf (P := e.pieces) (by simp [hw]) hkind)
  obtain ⟨kind, text⟩ := w
  obtain rfl : kind = .number := hkind
  have hderives := he.1
  rw [hw] at hderives
  exact hnumber _ (hderives.unique (.of_numeral hread)).1

/-- A number that is all of a filter is written with a point. -/
theorem Filter.derives_number {x : Binary64} (hfinite : x.isFinite = true) :
    Derives .filter (wordsOf (Filter.pieces (.operator (.constant (.number x)))))
      (.operator (.constant (.number x))) Parse.filterCost := by
  have hspelled : ∀ {places text}, places ≠ 0 → x.Spells places text →
      Derives .filter (wordsOf [.token .number text]) (.operator (.constant (.number x)))
        Parse.filterCost := by
    intro places text hplaces hspells
    obtain ⟨d, hread, hd⟩ := hspells.ofText?
    have hderives : Derives .expression [⟨.number, text⟩] (.constant (.number x)) 0 :=
      hd ▸ .of_numeral hread
    rw [hspells.wordsOf_token, ← Nat.zero_add Parse.filterCost]
    refine Derives.someFilter hderives fun w hw => ?_
    obtain rfl := List.singleton_inj.1 hw
    simp [Word.isWhole, hspells.contains_point hplaces]
  simp only [Filter.pieces]
  split
  · rename_i hwhole
    exact hspelled (by decide) (Binary64.wholeText_spells hwhole)
  · rename_i hwhole
    obtain ⟨places, hspells, hplaces⟩ := Binary64.toText_spells hfinite
    exact hspelled (fun h => hwhole (hplaces h)) hspells

/-! ## Every expression -/

mutual

theorem Expr.isDerived : ∀ {e : Expr}, e.isWellFormed = true →
    (∀ x ∈ e.numbers, x.isFinite = true) → e.IsDerived
  | .constant c, _, hfinite => Constant.isDerived hfinite
  | .variableRef x, _, _ => .of_phrase .primary rfl .variableRef
  | .call c, h, hfinite => .of_phrase .primary rfl (Call.derives h hfinite)
  | .group e, h, hfinite => by
    refine .of_phrase .primary rfl ?_
    rw [Expr.wordsOf_group]
    exact .group (Expr.isDerived (e := e) h hfinite).1
  | .selector s, h, hfinite =>
    .of_phrase .primary rfl (.selected (Selector.derives h hfinite))
  | .or es, h, hfinite => by
    simp only [Expr.isWellFormed, Bool.and_eq_true, decide_eq_true_eq] at h
    have hne : es ≠ [] := List.ne_nil_of_length_pos (by omega)
    refine .of_phrase .or rfl ?_
    rw [Expr.wordsOf_or]
    exact .or (Expr.derives_disjuncts hne (Expr.isDerived_each h.2 hfinite)) h.1
  | .and es, h, hfinite => by
    simp only [Expr.isWellFormed, Bool.and_eq_true, decide_eq_true_eq] at h
    have hne : es ≠ [] := List.ne_nil_of_length_pos (by omega)
    refine .of_phrase .and rfl ?_
    rw [Expr.wordsOf_and]
    exact .and (Expr.derives_conjuncts hne (Expr.isDerived_each h.2 hfinite)) h.1
  | .comparison o e f, h, hfinite => by
    simp only [Expr.isWellFormed, Bool.and_eq_true, decide_eq_true_eq] at h
    simp only [Expr.numbers, List.forall_mem_append] at hfinite
    have hleft := (Expr.isDerived h.1.2 hfinite.1).2 .additive h.1.1
    have hright := (Expr.isDerived h.2.2 hfinite.2).2 .additive h.2.1
    refine .of_phrase .comparison rfl ?_
    rw [Expr.wordsOf_comparison]
    exact .comparison hleft hright
  | .additive e es, h, hfinite => by
    simp only [Expr.isWellFormed, Bool.and_eq_true, decide_eq_true_eq] at h
    simp only [Expr.numbers, List.forall_mem_append] at hfinite
    have hterms := Expr.derives_terms ⟨h.2.1.1, Expr.isDerived h.2.1.2 hfinite.1⟩
      (Expr.isDerived_sums h.2.2 hfinite.2)
    exact .of_phrase .additive rfl (.additive hterms (by simpa using h.1))
  | .multiplicative e es, h, hfinite => by
    simp only [Expr.isWellFormed, Bool.and_eq_true, decide_eq_true_eq] at h
    simp only [Expr.numbers, List.forall_mem_append] at hfinite
    have hfactors := Expr.derives_factors ⟨h.2.1.1, Expr.isDerived h.2.1.2 hfinite.1⟩
      (Expr.isDerived_products h.2.2 hfinite.2)
    exact .of_phrase .multiplicative rfl (.multiplicative hfactors (by simpa using h.1))
  | .union ss, h, hfinite => by
    simp only [Expr.isWellFormed, Bool.and_eq_true, decide_eq_true_eq] at h
    have hne : ss ≠ [] := List.ne_nil_of_length_pos (by omega)
    refine ⟨?_, fun ℓ hℓ => ?_⟩
    · rw [Expr.wordsOf_union]
      exact .union (Selector.derives_members hne (Selector.derives_each h.2 hfinite)) h.1
    · -- a union is no operand of any level
      cases ℓ <;> simp [Expr.strength, Level.strength] at hℓ

theorem Expr.isDerived_each {least : Nat} : ∀ {es : List Expr},
    Expr.allWellFormed least es = true → (∀ x ∈ Expr.allNumbers es, x.isFinite = true) →
    ∀ e ∈ es, least ≤ e.strength ∧ e.IsDerived
  | [], _, _ => by simp
  | e :: es, h, hfinite => by
    simp only [Expr.allWellFormed, Bool.and_eq_true, decide_eq_true_eq] at h
    simp only [Expr.allNumbers, List.forall_mem_append] at hfinite
    exact List.forall_mem_cons.2
      ⟨⟨h.1.1, Expr.isDerived h.1.2 hfinite.1⟩, Expr.isDerived_each h.2 hfinite.2⟩

theorem Expr.isDerived_sums : ∀ {es : List (AdditiveOp × Expr)},
    Expr.sumsWellFormed es = true → (∀ x ∈ Expr.sumNumbers es, x.isFinite = true) →
    ∀ p ∈ es, 5 ≤ p.2.strength ∧ p.2.IsDerived
  | [], _, _ => by simp
  | (_, e) :: es, h, hfinite => by
    simp only [Expr.sumsWellFormed, Bool.and_eq_true, decide_eq_true_eq] at h
    simp only [Expr.sumNumbers, List.forall_mem_append] at hfinite
    exact List.forall_mem_cons.2
      ⟨⟨h.1.1, Expr.isDerived h.1.2 hfinite.1⟩, Expr.isDerived_sums h.2 hfinite.2⟩

theorem Expr.isDerived_products : ∀ {es : List (MultiplicativeOp × Expr)},
    Expr.productsWellFormed es = true → (∀ x ∈ Expr.productNumbers es, x.isFinite = true) →
    ∀ p ∈ es, 6 ≤ p.2.strength ∧ p.2.IsDerived
  | [], _, _ => by simp
  | (_, e) :: es, h, hfinite => by
    simp only [Expr.productsWellFormed, Bool.and_eq_true, decide_eq_true_eq] at h
    simp only [Expr.productNumbers, List.forall_mem_append] at hfinite
    exact List.forall_mem_cons.2
      ⟨⟨h.1.1, Expr.isDerived h.1.2 hfinite.1⟩, Expr.isDerived_products h.2 hfinite.2⟩

theorem Call.derives : ∀ {c : Call}, c.isWellFormed = true →
    (∀ x ∈ c.numbers, x.isFinite = true) →
    Derives (.phrase .primary) (wordsOf c.pieces) (.call c) c.nesting
  | .mk withDollar x es, h, hfinite => by
    simp only [Call.isWellFormed, Bool.and_eq_true] at h
    rw [Call.wordsOf_mk]
    cases es with
    | nil => exact .callEmpty
    | cons e es =>
      have heach := Expr.isDerived_each h.2 hfinite
      exact .call (Expr.derives_arguments (by simp) fun f hf => (heach f hf).2)

theorem Selector.derives : ∀ {s : Selector}, s.isWellFormed = true →
    (∀ x ∈ s.numbers, x.isFinite = true) → Derives .selector (wordsOf s.pieces) s s.nesting
  | .steps absolute ss, h, hfinite => by
    simp only [Selector.isWellFormed, Bool.and_eq_true] at h
    rw [Selector.wordsOf_steps]
    exact .path (Step.derives_steps (by simpa using h.1) (Step.derives_each h.2 hfinite))
  | .scoped s, h, hfinite => by
    simp only [Selector.isWellFormed] at h
    rw [Selector.wordsOf_scoped]
    exact .scopedSelector (Selector.derives h hfinite)

theorem Selector.derives_each : ∀ {ss : List Selector}, Selector.allWellFormed ss = true →
    (∀ x ∈ Selector.allNumbers ss, x.isFinite = true) →
    ∀ s ∈ ss, Derives .selector (wordsOf s.pieces) s s.nesting
  | [], _, _ => by simp
  | s :: ss, h, hfinite => by
    simp only [Selector.allWellFormed, Bool.and_eq_true] at h
    simp only [Selector.allNumbers, List.forall_mem_append] at hfinite
    exact List.forall_mem_cons.2
      ⟨Selector.derives h.1 hfinite.1, Selector.derives_each h.2 hfinite.2⟩

theorem Step.derives : ∀ {s : Step}, s.isWellFormed = true →
    (∀ x ∈ s.numbers, x.isFinite = true) → Derives .step (wordsOf s.pieces) s s.nesting
  | .parent, _, _ => .parent
  | .current, _, _ => .current
  | .named isAttribute x p, h, hfinite => by
    simp only [Step.isWellFormed, Bool.and_eq_true] at h
    rw [Step.wordsOf_named, Step.nesting, ← Nat.zero_max p.nesting]
    exact Derives.named x.derives (Predicate.derives h.2 hfinite)

theorem Step.derives_each : ∀ {ss : List Step}, Step.allWellFormed ss = true →
    (∀ x ∈ Step.allNumbers ss, x.isFinite = true) →
    ∀ s ∈ ss, Derives .step (wordsOf s.pieces) s s.nesting
  | [], _, _ => by simp
  | s :: ss, h, hfinite => by
    simp only [Step.allWellFormed, Bool.and_eq_true] at h
    simp only [Step.allNumbers, List.forall_mem_append] at hfinite
    exact List.forall_mem_cons.2 ⟨Step.derives h.1 hfinite.1, Step.derives_each h.2 hfinite.2⟩

theorem Predicate.derives : ∀ {p : Predicate}, p.isWellFormed = true →
    (∀ x ∈ p.numbers, x.isFinite = true) → Derives .predicate (wordsOf p.pieces) p p.nesting
  | .absent, _, _ => .absent
  | .index i, _, _ => by
    rw [Predicate.pieces, Index.wordsOf_pieces]
    exact .index (Index.ofText?_toString i)
  | .filter f, h, hfinite => by
    simp only [Predicate.isWellFormed] at h
    rw [Predicate.wordsOf_filter]
    exact .filtered (Filter.derives h hfinite)
  | .filterThenIndex f i, h, hfinite => by
    simp only [Predicate.isWellFormed] at h
    rw [Predicate.wordsOf_filterThenIndex, Index.wordsOf_pieces]
    exact .filteredIndex (Filter.derives h hfinite) (Index.ofText?_toString i)

theorem Filter.derives : ∀ {f : Filter}, f.isWellFormed = true →
    (∀ x ∈ f.numbers, x.isFinite = true) → Derives .filter (wordsOf f.pieces) f f.nesting
  | .empty, _, _ => .noFilter
  | .call c, h, hfinite =>
    Filter.derives_body (e := .call c) (by simp)
      (.of_phrase .primary rfl (Call.derives h hfinite))
  | .selector s, h, hfinite =>
    Filter.derives_body (e := .selector s) (by simp)
      (.of_phrase .primary rfl (.selected (Selector.derives h hfinite)))
  | .operator e, h, hfinite => by
    simp only [Filter.isWellFormed, Bool.and_eq_true, Bool.not_eq_true'] at h
    by_cases hnumber : ∃ x, e = .constant (.number x)
    · obtain ⟨x, rfl⟩ := hnumber
      rw [Filter.nesting, Expr.nesting, Nat.zero_add]
      exact Filter.derives_number (hfinite x (List.mem_singleton_self x))
    · have hne : ∀ x, e ≠ .constant (.number x) := by simpa using hnumber
      have hbody : Filter.ofExpr e = .operator e := by
        cases e <;> first | rfl | simp [Expr.isBare] at h
      have hderives := Filter.derives_body hne (Expr.isDerived h.2 hfinite)
      rw [hbody] at hderives
      rw [Filter.pieces_operator hne]
      exact hderives

end

/-- The text of an expression is scanned as words that derive it. -/
theorem Expr.derives_print {e : Expr} (h : e.isWellFormed = true)
    (hfinite : ∀ x ∈ e.numbers, x.isFinite = true) :
    ∃ ts, Token.scan e.print = .ok ts ∧
      Derives .expression (ts.dropLast.map Token.word) e e.nesting := by
  obtain ⟨ts, hwords, hscan⟩ := Expr.tokens_print h
  refine ⟨_, hscan, ?_⟩
  rw [List.dropLast_concat, hwords]
  exact (Expr.isDerived h hfinite).1

end MapExpr
