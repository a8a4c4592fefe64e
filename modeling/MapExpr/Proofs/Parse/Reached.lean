import MapExpr.Proofs.Grammar.Language
import MapExpr.Proofs.Parse.Answers

/-!
# States that are reached

What is known of the state after the first tokens of a text: it is not complete before the end
marker, and what it holds of single tokens is true of the last one.

* `State.Reached ts s`: the state `s` comes after the tokens `ts`;
* `State.Reached.answers`, `State.Reached.snoc`: one token more;
* `reached_of_run`: every run over genuine tokens.
-/

namespace MapExpr.Parse

/-- A number is read as a constant. -/
theorem isSome_constant? {t : Token} (hkind : t.kind = .number) (ht : t.word.IsGenuine) :
    (constant? t).isSome = true := by
  simp only [Word.IsGenuine, Token.kind_word, hkind, Token.text_word] at ht
  simpa only [constant?, hkind, Option.isSome_map] using ht

/-- What is known of the state `s` after the tokens `ts`. -/
structure State.Reached (ts : List Token) (s : State) : Prop where
  parsed : s.parsed? = none
  named : s.IsNamed → ts.getLast?.any (·.kind == .identifier) = true
  opened : ts.getLast?.any Token.isOpening = true → s.IsOpened
  kept : ∀ {number}, s.kept? = some number → ts.getLast? = some number ∧ number.isWhole = true

variable {limit : Nat} {ts : List Token} {t : Token} {s s' : State}

theorem reached_start : start.Reached [] :=
  ⟨rfl, nofun, nofun, nofun⟩

namespace State.Reached

/-- The number that a reached state keeps is read as a constant. -/
theorem isSome_constant? (h : s.Reached ts) (hts : ∀ t ∈ ts, t.word.IsGenuine) {number : Token}
    (hnumber : s.kept? = some number) : (constant? number).isSome = true := by
  obtain ⟨hlast, hwhole⟩ := h.kept hnumber
  exact Parse.isSome_constant? (Word.kind_of_isWhole (w := number.word) hwhole)
    (hts number (List.mem_of_getLast? hlast))

/-- A reached state answers every token, or the token before it is no index. -/
theorem answers (h : s.Reached ts) (hts : ∀ t ∈ ts, t.word.IsGenuine) (t : Token) :
    (s.react t).Answers ts.getLast? t (fun rest => s.costs (t :: rest)) ∨
      ∃ number, s.kept? = some number ∧ t.kind = .rightBracket ∧
        Decimal.Integer.ofText? number.text = none ∧
        (s.react t).value = .error (Expectation.integerIndex.butFound number) :=
  State.answers h.parsed h.named fun _ => h.isSome_constant? hts

/-- A token that is taken leads to a state that follows it. -/
theorem follows (h : s.Reached ts) (hts : ∀ t ∈ ts, t.word.IsGenuine)
    (hreact : (s.react t).value = .ok s') :
    s'.Follows ts.getLast? t fun rest => s.costs (t :: rest) := by
  rcases h.answers hts t with (⟨x, herror⟩ | ⟨s₁, hok, hfollows⟩) | ⟨number, -, -, -, herror⟩
  · cases hreact.symm.trans herror
  · obtain rfl := Except.ok.inj (hreact.symm.trans hok)
    exact hfollows
  · cases hreact.symm.trans herror

theorem snoc (h : s.Reached ts) (hts : ∀ t ∈ ts, t.word.IsGenuine) (ht : t.kind ≠ .eof)
    (hreact : (s.react t).value = .ok s') : s'.Reached (ts ++ [t]) := by
  have hfollows := h.follows hts hreact
  refine ⟨?_, fun hnamed => ?_, fun hopening => ?_, fun hnumber => ?_⟩
  · rw [← Option.not_isSome_iff_eq_none]
    exact fun hsome => ht (hfollows.ends.1 hsome)
  · simp [hfollows.named hnamed]
  · exact hfollows.opened (by simpa using hopening)
  · obtain ⟨rfl, hwhole⟩ := hfollows.keeps hnumber
    exact ⟨by simp, hwhole⟩

end State.Reached

/-- A run over genuine tokens reaches the state that it leads to. -/
theorem reached_of_run (hts : ∀ t ∈ ts, t.word.IsGenuine) (h : start.run limit ts = .ok s) :
    s.Reached ts := by
  induction ts using List.reverseRecOn generalizing s with
  | nil =>
    obtain rfl := Except.ok.inj h
    exact reached_start
  | append_singleton ts t ih =>
    obtain ⟨s₁, hrun, hlast⟩ := State.run_append_eq_ok_iff.1 h
    obtain ⟨s₂, hstep, hnil⟩ := State.run_cons_eq_ok_iff.1 hlast
    obtain rfl := Except.ok.inj hnil
    have hbefore : ∀ u ∈ ts, u.word.IsGenuine := fun u hu => hts u (List.mem_append_left _ hu)
    have ht : t.word.IsGenuine := hts t (by simp)
    exact (ih hbefore hrun).snoc hbefore ht.kind_ne_eof (State.step_eq_ok_iff.1 hstep).2

end MapExpr.Parse
