import MapExpr.Proofs.Grammar.Reads.Selectors

/-!
# Derived words are read

The words of a derivation lead a reader to the tree of the derivation, exactly if the limit leaves
room for its nesting.

* `Derives.reads`: every derivation is read as its category says;
* `run_start`: a whole text, from the start to the end marker;
* `Derives.unique`: so the words of an expression have only one tree.
-/

namespace MapExpr

open Grammar (Category Derives)
open Grammar.Category Parse

/-- Every derivation is read as it stands. -/
theorem Grammar.Derives.reads {c : Category} {ws : List Word} {t : c.Tree} {n : Nat}
    (h : Derives c ws t n) : c.Reads ws t n := by
  induction h with
  | whole _ ih => exact reads_whole ih
  | union _ hss ih => exact reads_union ih hss
  | lift hk _ ih => exact reads_lift hk ih
  | or _ hes ih => exact reads_or ih hes
  | and _ hes ih => exact reads_and ih hes
  | comparison _ _ ihe ihf => exact reads_comparison ihe ihf
  | additive _ hes ih => exact reads_additive ih hes
  | multiplicative _ hes ih => exact reads_multiplicative ih hes
  | firstDisjunct _ ih => exact reads_firstDisjunct ih
  | nextDisjunct _ _ ihes ih => exact reads_nextDisjunct ihes ih
  | firstConjunct _ ih => exact reads_firstConjunct ih
  | nextConjunct _ _ ihes ih => exact reads_nextConjunct ihes ih
  | firstTerm _ ih => exact reads_firstTerm ih
  | nextTerm _ _ ihes ih => exact reads_nextTerm ihes ih
  | firstFactor _ ih => exact reads_firstFactor ih
  | nextFactor _ _ ihes ih => exact reads_nextFactor ihes ih
  | number hd => exact reads_number hd
  | system => exact reads_system
  | literal => exact reads_literal
  | variableRef => exact reads_variableRef
  | callEmpty => exact reads_callEmpty
  | call _ ih => exact reads_call ih
  | group _ ih => exact reads_group ih
  | selected _ ih => exact reads_selected ih
  | firstArgument _ ih => exact reads_firstArgument ih
  | nextArgument _ _ ihes ih => exact reads_nextArgument ihes ih
  | scopedSelector _ ih => exact reads_scopedSelector ih
  | path _ ih => exact reads_path ih
  | firstMember _ ih => exact reads_firstMember ih
  | nextMember _ _ ihss ih => exact reads_nextMember ihss ih
  | firstStep _ ih => exact reads_firstStep ih
  | nextStep _ _ ihts ih => exact reads_nextStep ihts ih
  | current => exact reads_current
  | parent => exact reads_parent
  | named _ _ ihname ihpred => exact reads_named ihname ihpred
  | plainName => exact reads_plainName
  | plainWildcard => exact reads_plainWildcard
  | qualifiedName => exact reads_qualifiedName
  | qualifiedWildcard => exact reads_qualifiedWildcard
  | absent => exact reads_absent
  | index hi => exact reads_index hi
  | filtered _ ih => exact reads_filtered ih
  | filteredIndex _ hi ih => exact reads_filteredIndex ih hi
  | doubleIndex hi hj => exact reads_doubleIndex hi hj
  | noFilter => exact reads_noFilter
  | someFilter _ hlone ih => exact reads_someFilter ih hlone

/-- A whole text with its end marker is accepted if the limit is above its nesting, and has the
fault of the limit otherwise. -/
theorem run_start {ts : List Token} {e : Expr} {n : Nat} (stop limit : Nat)
    (h : Derives .expression (ts.map Token.word) e n) :
    (n < limit → start.run limit (ts ++ [.eof stop]) = .ok (.accepted ⟨e, ⟨0, stop⟩⟩)) ∧
      (limit ≤ n → ∃ o, start.run limit (ts ++ [.eof stop]) = .error (.depthExceeded o limit)) := by
  have hdue : Leads 0 (n + 1) 1 start (ts.map Token.word) (.operandDone e .empty .root) :=
    leads_expressionDue h.reads rfl
  constructor
  · intro hlimit
    obtain ⟨s₁, hrun, hagree⟩ := hdue.reads (show 0 + (n + 1) ≤ limit by omega) rfl
    rw [State.run_append, hrun]
    show s₁.run limit [.eof stop] = _
    rw [State.run_cons, hagree (.eof stop) (show 0 < 1 by decide)]
    rfl
  · intro hlimit
    obtain ⟨o, hrun⟩ := hdue.refuses (Nat.zero_le limit) (by omega) rfl
    exact ⟨o, by rw [State.run_append, hrun]; rfl⟩

/-- The words of an expression have one tree and one nesting. -/
theorem Grammar.Derives.unique {ws : List Word} {e f : Expr} {m n : Nat}
    (he : Derives .expression ws e m) (hf : Derives .expression ws f n) : e = f ∧ m = n := by
  rw [← Word.map_word_token ws] at he hf
  obtain ⟨hacceptE, hrefuseE⟩ := run_start 0 (max m n) he
  obtain ⟨hacceptF, hrefuseF⟩ := run_start 0 (max m n) hf
  have heq : m = n := by
    -- between the two nestings one run is accepted and the other is not
    rcases Nat.lt_trichotomy m n with hlt | heq | hlt
    · obtain ⟨o, ho⟩ := hrefuseF (by omega)
      simp [hacceptE (by omega)] at ho
    · exact heq
    · obtain ⟨o, ho⟩ := hrefuseE (by omega)
      simp [hacceptF (by omega)] at ho
  subst heq
  have hrun := (run_start 0 (m + 1) he).1 (by omega)
  rw [(run_start 0 (m + 1) hf).1 (by omega)] at hrun
  simp only [Except.ok.injEq, State.accepted.injEq, Parsed.mk.injEq, and_true] at hrun
  exact ⟨hrun.symm, rfl⟩

end MapExpr
