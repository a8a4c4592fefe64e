import MapExpr.Proofs.Descent.Progress

/-!
# Calls within calls

What holds of all the calls that are made while one is active. A step from a call to a call in it is
either a step to the right, or it stays and goes to a rule of a lower height.

* `Rule.height`, `Activation.Sound.lt_of_during`: a rule that is active is called again only behind
  the place where it began, so the tokens to come are a measure for the recursion;
* `Activation.Progresses`: what every sound call does to the place of the cursor;
* `Rule.slack`, `Activation.Shallow`: no more than four levels are entered for a token that has been
  taken, and never more than the limit.
-/

namespace MapExpr.Descent

variable {inp : Input} {d e root : Activation}

/-! ## Places -/

/-- Bounds the calls that may follow each other without a token being taken. -/
def Rule.height : Rule → Nat
  | main | round .arguments => 6
  | disjunction | nested _ => 5
  | conjunction | expression => 4
  | comparison | primary => 3
  | sum | selector => 2
  | step | predicate | union | product => 1
  | constant | functionCall | nodeName | index | filter | round _ => 0

theorem Rule.height_lt_of_mem_first (rule : Rule) :
    ∀ callee ∈ rule.first, callee.height < rule.height := by
  cases rule with
  | round loop => cases loop <;> simp [first, height]
  | _ => simp [first, height]

namespace Activation

theorem Sound.of_mem (h : d.Sound inp) (he : e ∈ d.inner) : e.Sound inp :=
  fun f hf => h f (hf.tail he)

/-- A call during another one begins behind it, or beside it with a lower rule. -/
theorem Sound.precedes (h : d.Sound inp) (he : e.During d) :
    d.entry.pos < e.entry.pos ∨ d.entry.pos ≤ e.entry.pos ∧ e.rule.height < d.rule.height := by
  have hdirect : ∀ {f d : Activation}, d.Sound inp → f ∈ d.inner → d.entry.pos < f.entry.pos ∨
      d.entry.pos ≤ f.entry.pos ∧ f.rule.height < d.rule.height := by
    intro f d h hf
    rcases h.isLocal.mayCall f hf with ⟨hfirst, hle⟩ | ⟨-, hlt⟩
    · exact .inr ⟨hle, Rule.height_lt_of_mem_first _ _ hfirst⟩
    · exact .inl hlt
  -- along the calls, places do not fall, and heights fall where a place stays
  induction he with
  | single he => exact hdirect h he
  | tail _ hf ih =>
    have hinner := ih (h.of_mem hf)
    have houter := hdirect h hf
    omega

/-- A rule that is active is called again only behind the place where it began. -/
theorem Sound.lt_of_during (h : d.Sound inp) (he : e.During d) (hrule : e.rule = d.rule) :
    d.entry.pos < e.entry.pos := by
  rcases h.precedes he with hlt | ⟨-, hheight⟩
  · exact hlt
  · exact absurd hheight (by rw [hrule]; exact Nat.lt_irrefl _)

/-- What a call does to the place of the cursor, and which calls may be made during it. -/
structure Progresses (inp : Input) (d : Activation) : Prop where
  takes : d.completed = true →
    d.rule ∈ [.expression, .primary, .functionCall, .selector, .step, .nodeName, .index, .filter] →
    d.entry.pos < d.exit.pos
  returns : d.entry.pos ≤ d.exit.pos
  stays : d.exit.pos ≤ inp.last
  /-- Only the round for an argument takes nothing before it can end, and then without a value. -/
  rounds : ∀ loop, d.rule = .round loop → d.completed = true ∨ loop ≠ .arguments →
    d.entry.pos < d.exit.pos
  again : ∀ e : Activation, e.During d → e.rule = d.rule → d.entry.pos < e.entry.pos

theorem Sound.progresses (h : d.Sound inp) : d.Progresses inp where
  takes hok hrule := by
    have htaken : d.rule.taken = 1 := by
      simp only [List.mem_cons, List.not_mem_nil, or_false] at hrule
      rcases hrule with hd | hd | hd | hd | hd | hd | hd | hd <;> rw [hd] <;> rfl
    have hle := h.isLocal.completes hok
    omega
  returns := Nat.le_trans (Nat.le_add_right _ _) h.isLocal.anyway
  stays := h.isLocal.exit_le
  rounds loop hd hround := by
    rcases hround with hok | hloop
    · have hle := h.isLocal.completes hok
      rw [hd] at hle
      exact hle
    · have htaken : (Rule.round loop).takenAnyway = 1 := by
        cases loop <;> first | rfl | exact absurd rfl hloop
      have hle := h.isLocal.anyway
      rw [hd, htaken] at hle
      exact hle
  again _ := h.lt_of_during

end Activation

/-! ## Levels -/

/-- What a rule may add to the levels that four for each token allow. -/
def Rule.slack : Rule → Nat
  | main | round .arguments => 1
  | nested cost => cost
  | _ => 0

theorem Rule.slack_le_of_mem_first (rule : Rule) :
    ∀ callee ∈ rule.first, callee.slack + rule.cost ≤ rule.slack := by
  cases rule with
  | round loop => cases loop <;> simp [first, slack, Rule.cost]
  | _ => simp [first, slack, Rule.cost]

theorem Rule.slack_le_of_mem_later (rule : Rule) :
    ∀ callee ∈ rule.later, callee.slack + rule.cost ≤ rule.slack + 4 := by
  cases rule with
  | round loop => cases loop <;> simp [later, slack, Rule.cost]
  | _ => simp [later, slack, Rule.cost, Parse.filterCost]

namespace Activation

/-- The levels that a call is given are bounded by the tokens taken before it, and by the limit. -/
structure Shallow (inp : Input) (d : Activation) : Prop where
  depth_le_pos : d.entry.depth + d.rule.slack ≤ 4 * d.entry.pos + 1
  depth_le_limit : d.entry.depth ≤ inp.limit

theorem Shallow.of_mem (h : d.Shallow inp) (hlocal : d.IsLocal inp) (he : e ∈ d.inner) :
    e.Shallow inp where
  depth_le_pos := by
    have hd := h.depth_le_pos
    rw [hlocal.depth_inner e he]
    rcases hlocal.mayCall e he with ⟨hfirst, hle⟩ | ⟨hlater, hlt⟩
    · have hslack := Rule.slack_le_of_mem_first _ _ hfirst
      omega
    · have hslack := Rule.slack_le_of_mem_later _ _ hlater
      omega
  depth_le_limit := by
    by_cases hnested : ∃ cost, d.rule = .nested cost
    · obtain ⟨cost, hd⟩ := hnested
      exact hlocal.limit_inner cost hd e he
    · rw [hlocal.depth_inner e he, Rule.cost_eq_zero fun cost hd => hnested ⟨cost, hd⟩]
      exact h.depth_le_limit

theorem Shallow.of_inside (h : root.Shallow inp) (hsound : root.Sound inp)
    (hd : d.Inside root) : d.Shallow inp := by
  induction hd using Relation.ReflTransGen.head_induction_on with
  | refl => exact h
  | head hmem hinside ih => exact ih.of_mem (hsound _ hinside) hmem

end Activation

/-- In a call of the first rule, made at the first token and not in brackets, all calls are
shallow. -/
theorem Called.shallow {α : Type} {r : Run α} (h : Called inp .main ⟨0, 0⟩ r) :
    ∀ root ∈ r.calls, ∀ d : Activation, d.Inside root → d.IsLocal inp ∧ d.Shallow inp := by
  obtain ⟨call, hcall, hsound⟩ := h.exists_isCall
  have hshallow : call.Shallow inp := by
    constructor <;> simp [hcall.entry_eq, hcall.rule_eq, Rule.slack]
  intro root hroot d hd
  obtain rfl : root = call := by simpa [hcall.calls_eq] using hroot
  exact ⟨hsound d hd, hshallow.of_inside hsound hd⟩

end MapExpr.Descent
