import MapExpr.Parse.Basic
import MapExpr.Proofs.Grammar.Basic

/-!
# Runs over words

What a reader does with a row of tokens whose words are known. As it does not look ahead, the state
after the words is known only up to the tokens that may follow: `Agree limit k` relates the states
that take every token in the same way which joins less tightly than `k`.

* `Kind.joins`: how tightly a token joins what stands before it;
* `Leads b n k s ws s'`: from `s` on, the words `ws` lead to `s'` up to such tokens, if the limit
  leaves room for `n` levels of nesting above `b`, and to the fault of the limit otherwise;
* `Leads.trans`, `Leads.join`, `Leads.enter`: runs one after the other, with an operator between
  them, and in brackets.
-/

namespace MapExpr

/-- How tightly a token joins what stands before it, from the tokens that only end it to those that
go on with a name. -/
def Kind.joins : Kind → Nat
  | .orWord => 1
  | .andWord => 2
  | .less | .greater | .lessEqual | .greaterEqual | .equal | .notEqual => 3
  | .plus | .minus => 4
  | .star | .divWord | .modWord => 5
  | .pipe => 6
  | .slash => 7
  | .leftBracket => 8
  | .colon | .leftParen => 9
  | _ => 0

theorem Kind.ne_of_joins_lt {j k : Kind} {n : Nat} (hj : j.joins < n) (hk : n ≤ k.joins) :
    j ≠ k := by
  rintro rfl
  omega

namespace Parse

/-- The state after some tokens, or their first fault. -/
def State.run (limit : Nat) (s : State) (ts : List Token) : Except ParseError State :=
  (read limit s ts).value

variable {limit b m n j k : Nat} {s s' s'' : State} {w : Word} {ws us : List Word} {t : Token}
  {ts : List Token}

theorem Outcome.bind_go (f : State → Except ParseError State) :
    (go s).value.bind f = f s := rfl

@[simp] theorem State.run_nil : s.run limit [] = .ok s := rfl

theorem State.run_cons :
    s.run limit (t :: ts) = (s.step limit t).value.bind fun s => s.run limit ts := by
  simp only [State.run, read]
  split <;> simp_all [Except.bind]

theorem State.run_append (us : List Token) :
    s.run limit (ts ++ us) = (s.run limit ts).bind fun s => s.run limit us :=
  read_append limit s ts us

/-- A list of tokens is an expression if it is accepted. -/
theorem ofTokens_eq_ok_iff {settings : Settings} {parsed : Parsed} :
    (ofTokens settings ts).value = .ok parsed ↔
      start.run settings.maxDepth ts = .ok (.accepted parsed) := by
  simp only [ofTokens, State.run, Traced.value_bind]
  cases (read settings.maxDepth start ts).value with
  | error e => simp
  | ok s => cases s <;> simp [State.parsed?]

theorem ofTokens_eq_error {settings : Settings} {e : ParseError}
    (h : start.run settings.maxDepth ts = .error e) :
    (ofTokens settings ts).value = .error e := by
  simp only [ofTokens, Traced.value_bind]
  rw [show (read settings.maxDepth start ts).value = .error e from h]
  rfl

/-- Both states take every token in the same way that joins less tightly than `k`. -/
def Agree (limit k : Nat) (s s' : State) : Prop :=
  ∀ t : Token, t.kind.joins < k → (s.step limit t).value = (s'.step limit t).value

theorem Agree.refl (s : State) : Agree limit k s s :=
  fun _ _ => rfl

theorem Agree.trans (h₁ : Agree limit j s s') (h₂ : Agree limit k s' s'') (hk : k ≤ j) :
    Agree limit k s s'' :=
  fun t ht => (h₁ t (Nat.lt_of_lt_of_le ht hk)).trans (h₂ t ht)

theorem Agree.run_cons (h : Agree limit k s s') (ht : t.kind.joins < k) :
    s.run limit (t :: ts) = s'.run limit (t :: ts) := by
  rw [State.run_cons, State.run_cons, h t ht]

/-- From `s` on, the words `ws` lead to `s'` as far as tokens can tell that join less tightly than
`k`, and need `n` levels of nesting above `b`. -/
structure Leads (b n k : Nat) (s : State) (ws : List Word) (s' : State) : Prop where
  reads : ∀ {limit : Nat} {ts : List Token}, b + n ≤ limit → ts.map Token.word = ws →
    ∃ s₁, s.run limit ts = .ok s₁ ∧ Agree limit k s₁ s'
  refuses : ∀ {limit : Nat} {ts : List Token}, b ≤ limit → limit < b + n →
    ts.map Token.word = ws → ∃ o, s.run limit ts = .error (.depthExceeded o limit)

/-- The word `w` leads from `s` to `s'`, whatever the limit and the place of the token. -/
def Takes (s : State) (w : Word) (s' : State) : Prop :=
  ∀ limit start : Nat, (s.step limit ⟨w.kind, w.text, start⟩).value = .ok s'

namespace Leads

theorem refl (s : State) : Leads b 0 k s [] s where
  reads _ hts := by
    obtain rfl := List.map_eq_nil_iff.1 hts
    exact ⟨s, rfl, .refl s⟩
  refuses _ _ _ := by omega

theorem agree (h : Leads b n j s ws s') (hs : ∀ limit, Agree limit k s' s'') (hk : k ≤ j) :
    Leads b n k s ws s'' where
  reads hlimit hts := by
    obtain ⟨s₁, hrun, hs₁⟩ := h.reads hlimit hts
    exact ⟨s₁, hrun, hs₁.trans (hs _) hk⟩
  refuses := h.refuses

theorem mono (h : Leads b n j s ws s') (hk : k ≤ j) : Leads b n k s ws s' :=
  h.agree (fun _ => .refl s') hk

/-- A run and a run from its end, which begins with a word that its last state allows. -/
theorem trans (h₁ : Leads b m j s ws s') (h₂ : Leads b n k s' us s'') (hk : k ≤ j)
    (hus : ∀ u ∈ us.head?, u.kind.joins < j) : Leads b (max m n) k s (ws ++ us) s'' where
  reads {limit ts} hlimit hts := by
    obtain ⟨ts₁, ts₂, rfl, hts₁, hts₂⟩ := List.map_eq_append_iff.1 hts
    obtain ⟨s₁, hrun, hs₁⟩ := h₁.reads (show b + m ≤ limit by omega) hts₁
    obtain ⟨s₂, hrun', hs₂⟩ := h₂.reads (show b + n ≤ limit by omega) hts₂
    rw [State.run_append, hrun]
    cases ts₂ with
    | nil =>
      obtain rfl := Except.ok.inj hrun'
      exact ⟨s₁, rfl, hs₁.trans hs₂ hk⟩
    | cons u ts₂ =>
      refine ⟨s₂, Eq.trans (hs₁.run_cons (hus u.word ?_)) hrun', hs₂⟩
      simp [← hts₂]
  refuses {limit ts} hb hlimit hts := by
    obtain ⟨ts₁, ts₂, rfl, hts₁, hts₂⟩ := List.map_eq_append_iff.1 hts
    rw [State.run_append]
    by_cases hm : b + m ≤ limit
    · obtain ⟨s₁, hrun, hs₁⟩ := h₁.reads hm hts₁
      obtain ⟨o, hrun'⟩ := h₂.refuses hb (show limit < b + n by omega) hts₂
      rw [hrun]
      cases ts₂ with
      | nil => simp at hrun'
      | cons u ts₂ =>
        refine ⟨o, Eq.trans (hs₁.run_cons (hus u.word ?_)) hrun'⟩
        simp [← hts₂]
    · obtain ⟨o, hrun⟩ := h₁.refuses hb (Nat.lt_of_not_le hm) hts₁
      exact ⟨o, by rw [hrun]; rfl⟩

/-- A word and a run after it. -/
theorem cons (h : Takes s w s') (hs : Leads b n k s' ws s'') : Leads b n k s (w :: ws) s'' := by
  have hstep : ∀ {limit ts}, ts.map Token.word = w :: ws →
      ∃ us : List Token, us.map Token.word = ws ∧ s.run limit ts = s'.run limit us := by
    intro limit ts hts
    obtain ⟨t, us, rfl, rfl, hus⟩ := List.map_eq_cons_iff.1 hts
    have htaken : (s.step limit t).value = .ok s' := h limit t.start
    exact ⟨us, hus, by rw [State.run_cons, htaken]; rfl⟩
  constructor
  · intro limit ts hlimit hts
    obtain ⟨us, hus, hrun⟩ := hstep hts
    rw [hrun]
    exact hs.reads hlimit hus
  · intro limit ts hb hlimit hts
    obtain ⟨us, hus, hrun⟩ := hstep hts
    rw [hrun]
    exact hs.refuses hb hlimit hus

theorem word (h : Takes s w s') : Leads b 0 k s [w] s' :=
  cons h (refl s')

/-- A run and a word after it. -/
theorem snoc (h : Leads b n j s ws s') (hw : Takes s' w s'') (hj : w.kind.joins < j) :
    Leads b n k s (ws ++ [w]) s'' := by
  constructor
  · intro limit ts hlimit hts
    obtain ⟨ts, us, rfl, hts, hus⟩ := List.map_eq_append_iff.1 hts
    obtain ⟨t, rfl, rfl⟩ := List.map_eq_singleton_iff.1 hus
    obtain ⟨s₁, hrun, hs₁⟩ := h.reads hlimit (by assumption)
    have hlast : (s₁.step limit t).value = .ok s'' := (hs₁ t hj).trans (hw limit t.start)
    exact ⟨s'', by rw [State.run_append, hrun, Except.bind, State.run_cons, hlast]; rfl, .refl s''⟩
  · intro limit ts hb hlimit hts
    obtain ⟨ts, us, rfl, hts, -⟩ := List.map_eq_append_iff.1 hts
    obtain ⟨o, hrun⟩ := h.refuses hb hlimit (by assumption)
    exact ⟨o, by rw [State.run_append, hrun]; rfl⟩

/-- Two runs with an operator between them. -/
theorem join (h₁ : Leads b m j s ws s') (hw : Takes s' w s'') (h₂ : Leads b n k s'' us s₁)
    (hj : w.kind.joins < j) (hk : k ≤ j) : Leads b (max m n) k s (ws ++ w :: us) s₁ :=
  h₁.trans (cons hw h₂) hk fun u hu => by
    obtain rfl := Option.some.inj hu
    exact hj

/-- A run from a state that takes the words as `s'` does. -/
theorem of_run_eq (h : Leads b n k s' ws s'')
    (hs : ∀ {limit : Nat} {ts : List Token}, ts.map Token.word = ws →
      s.run limit ts = s'.run limit ts) : Leads b n k s ws s'' where
  reads hlimit hts := by
    rw [hs hts]
    exact h.reads hlimit hts
  refuses hb hlimit hts := by
    rw [hs hts]
    exact h.refuses hb hlimit hts

/-- A run from a state that is nested `d` levels more deeply, where the limit is checked. -/
theorem enter {d : Nat} (h : Leads (b + d) n k s' ws s'') (hne : ws ≠ [])
    (hs : ∀ (limit : Nat) (t : Token),
      s.step limit t = Outcome.within limit (b + d) t (s'.step limit t)) :
    Leads b (n + d) k s ws s'' where
  reads {limit ts} hlimit hts := by
    have hstep : s.run limit ts = s'.run limit ts := by
      cases ts with
      | nil => exact absurd hts.symm hne
      | cons t ts => rw [State.run_cons, State.run_cons, hs, Outcome.within, if_neg (by omega)]
    rw [hstep]
    exact h.reads (by omega) hts
  refuses {limit ts} hb hlimit hts := by
    cases ts with
    | nil => exact absurd hts.symm hne
    | cons t ts =>
      rw [State.run_cons, hs, Outcome.within]
      split
      · exact ⟨t.start, rfl⟩
      · rw [← State.run_cons]
        exact h.refuses (by omega) (by omega) hts

end Leads

end Parse

end MapExpr
