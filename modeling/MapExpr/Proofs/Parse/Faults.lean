import MapExpr.Proofs.Parse.Reached
import MapExpr.Proofs.Token.Starts

/-!
# Where a fault is

A reader reports a fault at the token that it refuses, or at the number right before that token,
which it kept until it knew what the number is. So faults do not go back: under every limit, a run
that goes on from some state has its fault no earlier than at the token that is due there.

* `ParseError.Blames`: a fault at a token, with the texts and numbers that it has there;
* `State.due`: the first token of which a state has not yet decided;
* `State.Reached.blames`: the fault of a token, at that token or at the one that is kept;
* `State.Reached.due_le_of_run`: the fault of a run, no earlier than the token that is due;
* `exists_blamed_of_run`: the token that is to blame for the fault of a run;
* `parse_eq_error_iff`: the faults of a text are those of the run over its tokens.
-/

namespace MapExpr

open Parse

/-- The fault `e` is that of the token `t`: it is nested more deeply than `limit`, or it is not what
is expected. -/
def ParseError.Blames (limit : Nat) (t : Token) (e : ParseError) : Prop :=
  e = .depthExceeded t.start limit ∨ ∃ x : Expectation, e = x.butFound t

theorem ParseError.Blames.offset_eq {limit : Nat} {t : Token} {e : ParseError}
    (h : e.Blames limit t) : e.offset = t.start := by
  rcases h with rfl | ⟨x, rfl⟩ <;> rfl

namespace Parse

variable {limit : Nat} {s s' : State} {t u : Token} {ts us rest : List Token} {e : ParseError}

/-! ## Runs that end in a fault -/

theorem State.run_cons_eq_error_iff : s.run limit (t :: ts) = .error e ↔
    (s.step limit t).value = .error e ∨
      ∃ s', (s.step limit t).value = .ok s' ∧ s'.run limit ts = .error e := by
  rw [run_cons]
  cases (s.step limit t).value <;> simp [Except.bind]

/-- A run ends in an error at the first token that is not taken. -/
theorem State.exists_of_run_eq_error (h : s.run limit ts = .error e) :
    ∃ us t rest s', ts = us ++ t :: rest ∧ s.run limit us = .ok s' ∧
      (s'.step limit t).value = .error e := by
  induction ts generalizing s with
  | nil => cases h
  | cons t ts ih =>
    rw [run_cons] at h
    cases hstep : (s.step limit t).value with
    | error e' =>
      rw [hstep] at h
      obtain rfl := Except.error.inj h
      exact ⟨[], t, ts, s, rfl, rfl, hstep⟩
    | ok s₁ =>
      rw [hstep] at h
      obtain ⟨us, u, rest, s', rfl, hrun, herror⟩ := ih h
      exact ⟨t :: us, u, rest, s', rfl, run_cons_eq_ok_iff.2 ⟨s₁, hstep, hrun⟩, herror⟩

/-- What holds of the tokens before the last one holds of the first ones, if any follow. -/
theorem forall_of_dropLast {P : Token → Prop} (h : ∀ u ∈ (us ++ t :: rest).dropLast, P u) :
    ∀ u ∈ us, P u := by
  rw [List.dropLast_append_of_ne_nil (List.cons_ne_nil t rest)] at h
  exact fun u hu => h u (List.mem_append_left _ hu)

/-- A run over the tokens of a text that ends without a fault completes it. -/
theorem isSome_parsed?_of_run {stop : Nat} (hus : ∀ u ∈ us, u.word.IsGenuine)
    (h : start.run limit (us ++ [.eof stop]) = .ok s) : s.parsed?.isSome = true := by
  obtain ⟨s₁, hrun, hlast⟩ := State.run_append_eq_ok_iff.1 h
  obtain ⟨s₂, hstep, hnil⟩ := State.run_cons_eq_ok_iff.1 hlast
  obtain rfl := Except.ok.inj hnil
  exact ((reached_of_run hus hrun).follows hus (State.step_eq_ok_iff.1 hstep).2).ends.2 rfl

/-- The fault of the tokens of a text is that of the run over them. -/
theorem run_of_ofTokens_eq_error {stop : Nat} {settings : Settings}
    (hus : ∀ u ∈ us, u.word.IsGenuine)
    (h : (ofTokens settings (us ++ [.eof stop])).value = .error e) :
    start.run settings.maxDepth (us ++ [.eof stop]) = .error e := by
  cases hrun : start.run settings.maxDepth (us ++ [.eof stop]) with
  | error e' =>
    rw [ofTokens_eq_error hrun] at h
    rw [Except.error.inj h]
  | ok s =>
    have hparsed := isSome_parsed?_of_run hus hrun
    cases s with
    | accepted parsed => cases h.symm.trans (ofTokens_eq_ok_iff.2 hrun)
    | _ => cases hparsed

/-! ## The token that is due -/

/-- The first token of which the state `s` has not yet decided, in front of the token `t`. -/
def State.due (s : State) (t : Token) : Token :=
  s.kept?.getD t

/-- A token is held against the limit in the place of the one that is due. -/
theorem State.first_entry (h : 0 < (s.entry t).depth) : (s.entry t).first = s.due t := by
  cases s with
  | callOpened withDollar name chain hole =>
    simp only [entry] at h ⊢
    split <;> rfl
  | bracket head path hole =>
    simp only [entry] at h ⊢
    split <;> rfl
  | bracketNumber number head path hole =>
    simp only [entry] at h ⊢
    split
    · rename_i hclose
      rw [if_pos hclose] at h
      cases h
    · rfl
  | _ => rfl

namespace State.Reached

/-- The token that is due is the next one or the one before it. -/
theorem due_cases (h : s.Reached us) (t : Token) :
    s.due t = t ∨ us.getLast? = some (s.due t) := by
  unfold due
  cases hkept : s.kept? with
  | none => exact .inl rfl
  | some number => exact .inr (h.kept hkept).1

theorem due_mem (h : s.Reached us) (t : Token) : s.due t ∈ us ++ [t] := by
  rcases h.due_cases t with hdue | hlast
  · rw [hdue]
    exact List.mem_append_right _ (List.mem_singleton_self t)
  · exact List.mem_append_left _ (List.mem_of_getLast? hlast)

/-- When nothing is too deep, the fault of a token is that it, or the one that is due, is not what
is expected. -/
theorem refuses (h : s.Reached us) (hus : ∀ u ∈ us, u.word.IsGenuine)
    (hreact : (s.react t).value = .error e) :
    ∃ x : Expectation, e = x.butFound t ∨ e = x.butFound (s.due t) := by
  rcases h.answers hus t with (⟨x, herror⟩ | ⟨s', hok, -⟩) | ⟨number, hkept, -, -, herror⟩
  · exact ⟨x, .inl (Except.error.inj (hreact.symm.trans herror))⟩
  · cases hreact.symm.trans hok
  · have hdue : s.due t = number := by simp only [due, hkept, Option.getD_some]
    exact ⟨_, .inr (hdue ▸ Except.error.inj (hreact.symm.trans herror))⟩

/-- The fault of a token is at that token, or at the one that is due. -/
theorem blames (h : s.Reached us) (hus : ∀ u ∈ us, u.word.IsGenuine)
    (hstep : (s.step limit t).value = .error e) : e.Blames limit t ∨ e.Blames limit (s.due t) := by
  rcases State.step_eq_error_iff.1 hstep with ⟨hlimit, rfl⟩ | ⟨-, hreact⟩
  · rw [first_entry (Nat.zero_lt_of_lt hlimit)]
    exact .inr (.inl rfl)
  · obtain ⟨x, he⟩ := h.refuses hus hreact
    exact he.imp (fun he => .inr ⟨x, he⟩) fun he => .inr ⟨x, he⟩

/-- A limit is exceeded at the token that is due. -/
theorem start_due_of_tooDeep {offset d : Nat} (h : s.Reached us)
    (hus : ∀ u ∈ us, u.word.IsGenuine)
    (hstep : (s.step limit t).value = .error (.depthExceeded offset d)) :
    (s.due t).start = offset := by
  rcases State.step_eq_error_iff.1 hstep with ⟨hlimit, herror⟩ | ⟨-, hreact⟩
  · rw [← first_entry (Nat.zero_lt_of_lt hlimit)]
    exact (ParseError.depthExceeded.inj herror).1.symm
  · obtain ⟨x, he | he⟩ := h.refuses hus hreact <;> cases he

/-- The token that is due does not come after the next one. -/
theorem due_le (h : s.Reached us) (hstarts : (us ++ [t]).Pairwise (·.start < ·.start)) :
    (s.due t).start ≤ t.start := by
  rcases h.due_cases t with hdue | hlast
  · rw [hdue]
  · have hlt := (List.pairwise_append.1 hstarts).2.2 _ (List.mem_of_getLast? hlast) t (by simp)
    exact Nat.le_of_lt hlt

/-- The token that is due does not come before the last one that was taken. -/
theorem le_due (h : s.Reached us) (hstarts : (us ++ [t]).Pairwise (·.start < ·.start))
    (hlast : us.getLast? = some u) : u.start ≤ (s.due t).start := by
  rcases h.due_cases t with hdue | hlast'
  · have hlt := (List.pairwise_append.1 hstarts).2.2 _ (List.mem_of_getLast? hlast) t (by simp)
    rw [hdue]
    exact Nat.le_of_lt hlt
  · rw [Option.some.inj (hlast.symm.trans hlast')]

/-- The fault of a token does not come before the token that is due. -/
theorem due_le_offset (h : s.Reached us) (hus : ∀ u ∈ us, u.word.IsGenuine)
    (hstarts : (us ++ [t]).Pairwise (·.start < ·.start))
    (hstep : (s.step limit t).value = .error e) : (s.due t).start ≤ e.offset := by
  rcases h.blames hus hstep with hblames | hblames
  · rw [hblames.offset_eq]
    exact h.due_le hstarts
  · rw [hblames.offset_eq]

/-- The fault of a run does not come before the token that is due at its beginning. -/
theorem due_le_of_run (h : s.Reached us)
    (hgenuine : ∀ u ∈ (us ++ t :: rest).dropLast, u.word.IsGenuine)
    (hstarts : (us ++ t :: rest).Pairwise (·.start < ·.start))
    (hrun : s.run limit (t :: rest) = .error e) : (s.due t).start ≤ e.offset := by
  induction rest generalizing us s t with
  | nil =>
    obtain hstep | ⟨_, -, hnil⟩ := State.run_cons_eq_error_iff.1 hrun
    · exact h.due_le_offset (forall_of_dropLast hgenuine) hstarts hstep
    · cases hnil
  | cons u rest ih =>
    rw [List.append_cons] at hstarts
    have hplaced := (List.pairwise_append.1 hstarts).1
    obtain hstep | ⟨s', hstep, hrest⟩ := State.run_cons_eq_error_iff.1 hrun
    · exact h.due_le_offset (forall_of_dropLast hgenuine) hplaced hstep
    · -- the token is taken, and what is due after it does not come before it
      have hus := forall_of_dropLast hgenuine
      rw [List.append_cons] at hgenuine
      have ht : t.word.IsGenuine := forall_of_dropLast hgenuine t (by simp)
      have hreached := h.snoc hus ht.kind_ne_eof (State.step_eq_ok_iff.1 hstep).2
      have hnext : (us ++ [t] ++ [u]).Pairwise (·.start < ·.start) := by
        rw [List.append_cons] at hstarts
        exact (List.pairwise_append.1 hstarts).1
      calc (s.due t).start ≤ t.start := h.due_le hplaced
        _ ≤ (s'.due u).start := hreached.le_due hnext (by simp)
        _ ≤ e.offset := ih hreached hgenuine hstarts hrest

end State.Reached

/-- The fault of a run over tokens of which all but the last are words is at one of them. -/
theorem exists_blamed_of_run (hts : ∀ t ∈ ts.dropLast, t.word.IsGenuine)
    (h : start.run limit ts = .error e) : ∃ t ∈ ts, e.Blames limit t := by
  obtain ⟨us, t, rest, s, rfl, hrun, hstep⟩ := State.exists_of_run_eq_error h
  have hus := forall_of_dropLast hts
  have hreached := reached_of_run hus hrun
  rw [List.append_cons]
  rcases hreached.blames hus hstep with hblames | hblames
  · exact ⟨t, by simp, hblames⟩
  · exact ⟨s.due t, List.mem_append_left rest (hreached.due_mem t), hblames⟩

end Parse

/-! ## The faults of a text -/

variable {text : String} {ts : List Token} {settings : Settings} {e : ParseError}

/-- A text of tokens is refused as the run over them is. -/
theorem parse_eq_error_iff (hscan : Token.scan text = .ok ts) :
    parse settings text = .error e ↔ start.run settings.maxDepth ts = .error e := by
  obtain ⟨us, rfl, hus⟩ := Token.tokens_of_scan hscan
  rw [parse_of_scan hscan]
  exact ⟨run_of_ofTokens_eq_error hus, ofTokens_eq_error⟩

theorem isGenuine_of_mem_dropLast (hscan : Token.scan text = .ok ts) :
    ∀ t ∈ ts.dropLast, t.word.IsGenuine := by
  obtain ⟨us, rfl, hus⟩ := Token.tokens_of_scan hscan
  rwa [List.dropLast_concat]

end MapExpr
