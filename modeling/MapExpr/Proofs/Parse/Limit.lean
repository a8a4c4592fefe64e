import MapExpr.Proofs.Grammar.Runs

/-!
# The limit

All that a limit does to a reader. A token that leads into brackets is held against the limit before
it is looked at, and nothing else in a step depends on the limit.

* `State.entry`: how deep a token leads, and the token that the brackets begin with;
* `State.react`: what a token does when nothing is too deep;
* `State.step_eq_within`: a step is the check of its entry and then what the token does;
* `State.run_mono`, `State.run_unique`: runs under two limits.
-/

namespace MapExpr.Parse

open Outcome

/-- The depth that a token leads into, and the first token at that depth. -/
structure Entry where
  depth : Nat
  first : Token

/-- Where the token `t` leads into brackets; a depth of zero if it does not. -/
def State.entry : State → Token → Entry
  | .expressionDue hole, t => ⟨hole.depth, t⟩
  | .scopedDue hole, t => ⟨hole.depth, t⟩
  | .callOpened withDollar name chain hole, t =>
    if t.kind = .rightParen then ⟨0, t⟩
    else ⟨(ExprHole.argument withDollar name [] chain hole).depth, t⟩
  | .bracket head path hole, t =>
    if t.kind = .rightBracket ∨ t.isWhole then ⟨0, t⟩
    else ⟨(ExprHole.filter head path hole).depth, t⟩
  | .bracketNumber number head path hole, t =>
    if t.kind = .rightBracket then ⟨0, t⟩ else ⟨(ExprHole.filter head path hole).depth, number⟩
  | _, t => ⟨0, t⟩

/-- What the token `t` does under a limit that leaves room for it. -/
def State.react (s : State) (t : Token) : Outcome :=
  s.step (s.entry t).depth t

variable {limit limit' depth : Nat} {s s' s'' : State} {t : Token} {ts : List Token}
  {e : ParseError}

@[simp] theorem Outcome.within_self (t : Token) (o : Outcome) : within depth depth t o = o :=
  if_neg (Nat.lt_irrefl depth)

@[simp] theorem Outcome.within_zero (t : Token) (o : Outcome) : within limit 0 t o = o :=
  if_neg (Nat.not_lt_zero limit)

theorem Outcome.within_of_le (h : depth ≤ limit) (t : Token) (o : Outcome) :
    within limit depth t o = o :=
  if_neg (Nat.not_lt.2 h)

theorem Outcome.within_of_lt (h : limit < depth) (t : Token) (o : Outcome) :
    within limit depth t o = pure (.error (.depthExceeded t.start limit)) :=
  if_pos h

/-- A step is held against the limit once, and then goes on without it. -/
theorem State.step_eq_within (limit : Nat) (s : State) (t : Token) :
    s.step limit t = within limit (s.entry t).depth (s.entry t).first (s.react t) := by
  cases s with
  | expressionDue hole => simp [react, entry, step, beginExpression]
  | scopedDue hole => simp [react, entry, step]
  | callOpened withDollar name chain hole =>
    by_cases hclose : t.kind = .rightParen
    · simp [react, entry, step, hclose]
    · simp [react, entry, step, hclose, beginExpression]
  | bracket head path hole =>
    by_cases hclose : t.kind = .rightBracket
    · simp [react, entry, step, hclose]
    · by_cases hwhole : t.isWhole = true
      · simp [react, entry, step, hclose, hwhole]
      · simp [react, entry, step, hclose, hwhole, beginExpression]
  | bracketNumber number head path hole =>
    by_cases hclose : t.kind = .rightBracket
    · simp [react, entry, step, hclose]
    · simp [react, entry, step, hclose]
  | _ => simp [react, entry, step]

/-! ## Steps -/

theorem State.step_of_le (h : (s.entry t).depth ≤ limit) : s.step limit t = s.react t := by
  rw [step_eq_within, within_of_le h]

theorem State.step_of_lt (h : limit < (s.entry t).depth) :
    (s.step limit t).value = .error (.depthExceeded (s.entry t).first.start limit) := by
  rw [step_eq_within, within_of_lt h]
  rfl

/-- A token is taken under the limits from its depth on. -/
theorem State.step_eq_ok_iff : (s.step limit t).value = .ok s' ↔
    (s.entry t).depth ≤ limit ∧ (s.react t).value = .ok s' := by
  rcases Nat.lt_or_ge limit (s.entry t).depth with hlt | hle
  · simp [step_of_lt hlt, Nat.not_le.2 hlt]
  · simp [step_of_le hle, hle]

/-- The fault of a token is that of the limit, or one that it has under every limit with room. -/
theorem State.step_eq_error_iff : (s.step limit t).value = .error e ↔
    (limit < (s.entry t).depth ∧ e = .depthExceeded (s.entry t).first.start limit) ∨
      ((s.entry t).depth ≤ limit ∧ (s.react t).value = .error e) := by
  rcases Nat.lt_or_ge limit (s.entry t).depth with hlt | hle
  · simp [step_of_lt hlt, Nat.not_le.2 hlt, hlt, eq_comm]
  · simp [step_of_le hle, hle, Nat.not_lt.2 hle]

/-! ## Runs -/

theorem State.run_cons_eq_ok_iff : s.run limit (t :: ts) = .ok s' ↔
    ∃ s₁, (s.step limit t).value = .ok s₁ ∧ s₁.run limit ts = .ok s' := by
  rw [run_cons]
  cases (s.step limit t).value <;> simp [Except.bind]

theorem State.run_append_eq_ok_iff {us : List Token} : s.run limit (ts ++ us) = .ok s' ↔
    ∃ s₁, s.run limit ts = .ok s₁ ∧ s₁.run limit us = .ok s' := by
  rw [run_append]
  cases s.run limit ts <;> simp [Except.bind]

theorem State.run_append_of_ok {us : List Token} (h : s.run limit ts = .ok s') :
    s.run limit (ts ++ us) = s'.run limit us := by
  rw [run_append, h]
  rfl

/-- What is read under a limit is read alike under every higher one. -/
theorem State.run_mono (h : s.run limit ts = .ok s') (hle : limit ≤ limit') :
    s.run limit' ts = .ok s' := by
  induction ts generalizing s with
  | nil => exact h
  | cons t ts ih =>
    obtain ⟨s₁, hstep, hrun⟩ := run_cons_eq_ok_iff.1 h
    obtain ⟨hdepth, hreact⟩ := step_eq_ok_iff.1 hstep
    exact run_cons_eq_ok_iff.2
      ⟨s₁, step_eq_ok_iff.2 ⟨Nat.le_trans hdepth hle, hreact⟩, ih hrun⟩

/-- Two limits that let a reader pass lead it to the same state. -/
theorem State.run_unique (h : s.run limit ts = .ok s') (h' : s.run limit' ts = .ok s'') :
    s' = s'' := by
  have hmax := run_mono h (Nat.le_max_left limit limit')
  have hmax' := run_mono h' (Nat.le_max_right limit limit')
  exact Except.ok.inj (hmax.symm.trans hmax')

end MapExpr.Parse
