import MapExpr.Proofs.Descent.Parts
import MapExpr.Proofs.Grammar.Runs

/-!
# A descent beside a reader

A reader that takes one token after the other ends with a state or a fault. A descent over the same
tokens mirrors it, part by part: where a part of the descent ends with a value, the reader still
comes to its end from there on, and where it ends with a fault, so does the reader.

* `Input.Continues`: what the reader comes to if it goes on from the cursor;
* `Mirrors`: what a part of a descent says about the end of the reader;
* `Mirrors.bind`, `mirrors_nestedBy`, `Mirrors.whileAhead`: parts one after the other, in brackets
  and in a loop. A loop keeps an invariant of what it has gathered and of the reader.
-/

namespace MapExpr.Descent

open Parse (State Outcome)

variable {α β : Type} {inp : Input} {final : Except ParseError State} {depth cost n : Nat}
  {o o' : Token → Outcome} {c : Cursor} {s : State} {e : ParseError} {k : Kind}
  {P I : α → Cursor → Prop} {Q : β → Cursor → Prop} {r : Run α} {x : Descent α}
  {f : α → Descent β}

/-! ## The reader -/

namespace Input

/-- What the reader ends with if `o` is what the next token does. -/
def goes (inp : Input) (o : Token → Outcome) (c : Cursor) : Except ParseError State :=
  (o (inp.tokenAt c.pos)).value.bind fun s => s.run inp.limit (inp.tokens.drop (c.pos + 1))

/-- The reader comes to `final` if `o` is what the next token does, `depth` levels deep. -/
structure Continues (inp : Input) (final : Except ParseError State) (depth : Nat)
    (o : Token → Outcome) (c : Cursor) : Prop where
  goes_eq : inp.goes o c = final
  depth_eq : c.depth = depth

theorem Marked.drop_eq (h : inp.Marked) {i : Nat} (hi : i ≤ inp.last) :
    inp.tokens.drop i = inp.tokenAt i :: inp.tokens.drop (i + 1) := by
  obtain ⟨front, htokens, -⟩ := h.exists_front
  have hlt : i < inp.tokens.length := by
    simp only [last, htokens, List.length_append, List.length_singleton] at hi ⊢
    omega
  rw [List.drop_eq_getElem_cons hlt, tokenAt, List.getElem?_eq_getElem hlt, Option.getD_some]

/-- The reader goes on from the state `s`. -/
theorem Marked.goes_step (h : inp.Marked) (hc : c.pos ≤ inp.last) (s : State) :
    inp.goes (s.step inp.limit) c = s.run inp.limit (inp.tokens.drop c.pos) := by
  rw [h.drop_eq hc, State.run_cons, goes]

namespace Continues

/-- Two outcomes are the same for the next token. -/
theorem congr (h : inp.Continues final depth o c)
    (ho : (o (inp.tokenAt c.pos)).value = (o' (inp.tokenAt c.pos)).value) :
    inp.Continues final depth o' c :=
  ⟨by rw [← h.goes_eq, goes, goes, ho], h.depth_eq⟩

/-- The next token leads to the state `s`. -/
theorem next (hinp : inp.Marked) (h : inp.Continues final depth o c)
    (hne : (inp.tokenAt c.pos).kind ≠ .eof) (ho : (o (inp.tokenAt c.pos)).value = .ok s) :
    inp.Continues final depth (s.step inp.limit) c.next where
  goes_eq := by
    have hc : c.next.pos ≤ inp.last := hinp.lt_last hne
    rw [← h.goes_eq, hinp.goes_step hc, goes, ho]
    rfl
  depth_eq := h.depth_eq

/-- The next token leads to different states, for which the token after it is the same. -/
theorem congr_next (s s' : State) (hinp : inp.Marked) (h : inp.Continues final depth o c)
    (hne : (inp.tokenAt c.pos).kind ≠ .eof) (ho : (o (inp.tokenAt c.pos)).value = .ok s)
    (ho' : (o' (inp.tokenAt c.pos)).value = .ok s')
    (hs : (s.step inp.limit (inp.tokenAt c.next.pos)).value =
      (s'.step inp.limit (inp.tokenAt c.next.pos)).value) :
    inp.Continues final depth o' c where
  goes_eq := by
    have hc : c.next.pos ≤ inp.last := hinp.lt_last hne
    have hrun : inp.goes o' c = inp.goes (s'.step inp.limit) c.next := by
      rw [hinp.goes_step hc, goes, ho']
      rfl
    rw [hrun, ← (h.next hinp hne ho).goes_eq, goes, goes, hs]
  depth_eq := h.depth_eq

/-- The next token is a fault. -/
theorem eq_error (h : inp.Continues final depth o c)
    (ho : (o (inp.tokenAt c.pos)).value = .error e) : final = .error e := by
  rw [← h.goes_eq, goes, ho]
  rfl

end Continues

end Input

/-! ## Parts of a descent -/

/-- A descent may end like this beside a reader that comes to `final`: with the same fault, or
because it was given too few levels, of which nothing is said. -/
def Stop.Mirrors (final : Except ParseError State) : Stop → Prop
  | fault e => final = .error e
  | exhausted => True
  | badCut | fallback _ => False

/-- A part of a descent that ends with a value makes `P` true of it, and one that ends without a
value ends as the reader does. -/
def Mirrors (final : Except ParseError State) (P : α → Cursor → Prop) (r : Run α) : Prop :=
  match r.result with
  | .ok a => P a r.cursor
  | .error why => why.Mirrors final

namespace Mirrors

theorem pure {a : α} (h : P a c) : Mirrors final P ((Pure.pure a : Descent α) c) := h

theorem fault (h : final = .error e) : Mirrors final P ((stop (.fault e) : Descent α) c) := h

theorem exhausted : Mirrors final P ((stop .exhausted : Descent α) c) := trivial

theorem of_ok {a : α} (h : Mirrors final P r) (hr : r.result = .ok a) : P a r.cursor := by
  simpa only [Mirrors, hr] using h

theorem of_error {why : Stop} (h : Mirrors final P r) (hr : r.result = .error why) :
    why.Mirrors final := by
  simpa only [Mirrors, hr] using h

theorem imp {P' : α → Cursor → Prop} (h : Mirrors final P r) (hP : ∀ a c, P a c → P' a c) :
    Mirrors final P' r := by
  simp only [Mirrors] at h ⊢
  split at h
  · exact hP _ _ h
  · exact h

/-- A part and what follows it if it has a value. -/
theorem bind (hx : Mirrors final P (x c)) (hf : ∀ a c', P a c' → Mirrors final Q (f a c')) :
    Mirrors final Q ((x >>= f) c) := by
  cases hresult : (x c).result with
  | ok a =>
    rw [bind_of_ok f hresult]
    exact hf a _ (hx.of_ok hresult)
  | error why =>
    rw [bind_of_error f hresult]
    exact hx.of_error hresult

theorem activate (rule : Rule) (h : Mirrors final P (x c)) :
    Mirrors final P (Descent.activate rule x c) := h

/-- The next token is not what is due. -/
theorem unexpected (expected : String) (h : final = .error (inp.found c expected)) :
    Mirrors final P ((inp.unexpected expected : Descent α) c) := h

/-- A token that is taken, and leads the reader to the state `s`, and what follows it. -/
theorem bind_advance (s : State) {f : Token → Descent β} (hinp : inp.Marked)
    (h : inp.Continues final depth o c) (hne : (inp.tokenAt c.pos).kind ≠ .eof)
    (ho : (o (inp.tokenAt c.pos)).value = .ok s)
    (hf : inp.Continues final depth (s.step inp.limit) c.next →
      Mirrors final Q (f (inp.tokenAt c.pos) c.next)) :
    Mirrors final Q ((inp.advance >>= f) c) := by
  rw [Input.bind_advance f hne]
  exact hf (h.next hinp hne ho)

/-- A token that may stand here, and what follows it or its absence. -/
theorem bind_eat {f : Option Token → Descent β} (hk : k ≠ .eof)
    (hsome : (inp.tokenAt c.pos).kind = k → Mirrors final Q (f (some (inp.tokenAt c.pos)) c.next))
    (hnone : (inp.tokenAt c.pos).kind ≠ k → Mirrors final Q (f none c)) :
    Mirrors final Q ((inp.eat k >>= f) c) := by
  by_cases hkind : (inp.tokenAt c.pos).kind = k
  · rw [Input.bind_eat_of_eq f hkind hk]
    exact hsome hkind
  · rw [Input.bind_eat_of_ne f hkind]
    exact hnone hkind

/-- A token that is due, and leads the reader to the state `s`, and what follows it. -/
theorem bind_expect (s : State) {f : Token → Descent β} {expected : String} (hinp : inp.Marked)
    (h : inp.Continues final depth o c) (hk : k ≠ .eof)
    (hrefuse : (inp.tokenAt c.pos).kind ≠ k →
      (o (inp.tokenAt c.pos)).value = .error (inp.found c expected))
    (ho : (inp.tokenAt c.pos).kind = k → (o (inp.tokenAt c.pos)).value = .ok s)
    (hf : inp.Continues final depth (s.step inp.limit) c.next →
      Mirrors final Q (f (inp.tokenAt c.pos) c.next)) :
    Mirrors final Q ((inp.expect k expected >>= f) c) := by
  by_cases hkind : (inp.tokenAt c.pos).kind = k
  · rw [Input.bind_expect_of_eq f hkind hk]
    exact hf (h.next hinp (hkind.trans_ne hk) (ho hkind))
  · rw [Input.bind_expect_of_ne f hkind]
    exact h.eq_error (hrefuse hkind)

end Mirrors

/-- Brackets are left as deep as they were entered, and too deep for both or for none. -/
theorem mirrors_nestedBy {k : α → Token → Outcome} {inner : Nat}
    (h : inp.Continues final depth (fun t => Outcome.within inp.limit inner t (o t)) c)
    (hinner : inner = depth + cost)
    (hx : ∀ c', inp.Continues final inner o c' →
      Mirrors final (fun a => inp.Continues final inner (k a)) (x c')) :
    Mirrors final (fun a => inp.Continues final depth (k a)) (inp.nestedBy cost x c) := by
  obtain rfl := h.depth_eq
  subst hinner
  by_cases hlimit : inp.limit < c.depth + cost
  · rw [Input.nestedBy_of_lt x hlimit]
    refine h.eq_error ?_
    rw [Outcome.within, if_pos hlimit]
    rfl
  · have hbody := hx (c.deepen cost) ⟨?_, rfl⟩
    · rw [Input.nestedBy_of_le x (Nat.le_of_not_lt hlimit)]
      simp only [Mirrors]
      cases hresult : (x (c.deepen cost)).result with
      | ok a =>
        have ha := hbody.of_ok hresult
        exact ⟨ha.goes_eq, by rw [Cursor.depth_lift, ha.depth_eq, Nat.add_sub_cancel]⟩
      | error why => exact hbody.of_error hresult
    · rw [← h.goes_eq, Input.goes, Input.goes, Outcome.within, if_neg hlimit]
      rfl

theorem isExactly_eq_some {j : Kind} {u : Unit} (h : Kind.isExactly k j = some u) : j = k := by
  simpa [Kind.isExactly] using h

theorem isExactly_eq_none {j : Kind} (h : Kind.isExactly k j = none) : j ≠ k := by
  simpa [Kind.isExactly] using h

/-- A loop keeps the invariant `I`. -/
theorem Mirrors.whileAhead {loop : Loop} {test : Kind → Option β} {body : α → β → Descent α}
    (htest : test .eof = none)
    (hbody : ∀ a b c, I a c → (inp.tokenAt c.pos).kind ≠ .eof →
      test (inp.tokenAt c.pos).kind = some b → Mirrors final I (body a b c.next))
    (hend : ∀ a c, I a c → test (inp.tokenAt c.pos).kind = none → P a c) (n : Nat) {a : α}
    (ha : I a c) : Mirrors final P (inp.whileAhead loop test body n a c) := by
  induction n generalizing a c with
  | zero => exact .exhausted
  | succ n ih =>
    rw [Input.whileAhead, Input.bind_peek]
    cases hb : test (inp.tokenAt c.pos).kind with
    | none => exact hend a c ha hb
    | some b =>
      have hne : (inp.tokenAt c.pos).kind ≠ .eof := fun h => by simp [h, htest] at hb
      have hround : Mirrors final I (Descent.activate (.round loop)
          (do let _ ← inp.advance; body a b) c) := by
        refine .activate _ ?_
        rw [Input.bind_advance _ hne]
        exact hbody a b c ha hne hb
      exact hround.bind fun a c' ha => ih ha

end MapExpr.Descent
