import Mathlib.Logic.Relation
import MapExpr.Proofs.Descent.Rules

/-!
# Calls and their parts

What a call of a rule does to the cursor, and which calls it makes. A rule may call some rules where
it begins (`Rule.first`), and all others only after it has taken a token (`Rule.later`).

* `Activation.IsLocal`: what is known of a call and of the calls directly in it;
* `Activation.Sound`: a call in which all calls are local;
* `Called`: a run that is one sound call of a rule;
* `PartOf`, `PartOf.bind`, `PartOf.whileAhead`: a part of the body of a rule, and such parts one
  after the other;
* `called_activate`, `called_nestedBy`: from the body of a rule to a call of it;
* `PartOf.enclosed`: a call in brackets, up to the closing one.
-/

namespace MapExpr.Descent

/-! ## Which rules call which -/

namespace Rule

/-- The rules that may be called where a rule begins. -/
def first : Rule → List Rule
  | main => [nested 1]
  | expression => [primary]
  | union => [round .members]
  | disjunction => [conjunction, round .disjuncts]
  | conjunction => [comparison, round .conjuncts]
  | comparison => [sum]
  | sum => [product, round .terms]
  | product => [round .factors]
  | primary => [constant, functionCall, selector]
  | selector => [step]
  | step => [nodeName]
  | predicate => [index, filter]
  | nested _ => [expression, selector]
  | round .arguments => [nested 1]
  | _ => []

/-- The rules that may be called after a rule has taken a token. -/
def later : Rule → List Rule
  | expression => [union, disjunction]
  | comparison => [primary, sum]
  | primary => [nested 1]
  | functionCall => [round .arguments]
  | selector => [nested 1, round .steps]
  | step => [predicate]
  | predicate => [index]
  | filter => [nested Parse.filterCost]
  | round .members => [selector]
  | round .disjuncts => [primary, conjunction]
  | round .conjuncts => [primary, comparison]
  | round .terms => [primary, product]
  | round .factors => [primary]
  | round .steps => [step]
  | _ => []

/-- The levels that a call enters for the calls in it. -/
def cost : Rule → Nat
  | nested cost => cost
  | _ => 0

theorem cost_eq_zero {rule : Rule} (h : ∀ cost, rule ≠ nested cost) : rule.cost = 0 := by
  cases rule <;> first | rfl | exact absurd rfl (h _)

/-- The tokens that a call takes at least if it has a value. -/
def taken : Rule → Nat
  | union | disjunction | conjunction | comparison | sum | product | predicate => 0
  | _ => 1

/-- The tokens that a call takes at least, however it ends. -/
def takenAnyway : Rule → Nat
  | round .arguments => 0
  | round _ => 1
  | _ => 0

/-- A call of the rule that begins at `start` may call `callee` at `place`. -/
def MayCall (rule callee : Rule) (start place : Nat) : Prop :=
  callee ∈ rule.first ∧ start ≤ place ∨ callee ∈ rule.later ∧ start < place

theorem MayCall.mono {rule callee : Rule} {start place place' : Nat}
    (h : rule.MayCall callee start place) (hle : place ≤ place') :
    rule.MayCall callee start place' :=
  h.imp (fun h => ⟨h.1, Nat.le_trans h.2 hle⟩) fun h => ⟨h.1, Nat.lt_of_lt_of_le h.2 hle⟩

end Rule

/-! ## The tokens of an input -/

namespace Input

variable {inp : Input} {i : Nat}

/-- The place of the last token. -/
def last (inp : Input) : Nat :=
  inp.tokens.length - 1

/-- The last token, and no other, is an end marker. -/
structure Marked (inp : Input) : Prop where
  exists_front : ∃ front, inp.tokens = front ++ [inp.marker] ∧ ∀ t ∈ front, t.kind ≠ .eof
  kind_marker : inp.marker.kind = .eof

theorem Marked.kind_of_lt (h : inp.Marked) (hi : i < inp.last) :
    (inp.tokenAt i).kind ≠ .eof := by
  obtain ⟨front, htokens, hfront⟩ := h.exists_front
  have hlt : i < front.length := by simpa [last, htokens] using hi
  rw [tokenAt, htokens, List.getElem?_append_left hlt, List.getElem?_eq_getElem hlt,
    Option.getD_some]
  exact hfront _ (List.getElem_mem hlt)

theorem Marked.kind_of_le (h : inp.Marked) (hi : inp.last ≤ i) :
    (inp.tokenAt i).kind = .eof := by
  obtain ⟨front, htokens, -⟩ := h.exists_front
  have hle : front.length ≤ i := by simpa [last, htokens] using hi
  rw [tokenAt, htokens, List.getElem?_append_right hle]
  cases i - front.length <;> exact h.kind_marker

theorem Marked.getLast?_tokens (h : inp.Marked) : inp.tokens.getLast? = some inp.marker := by
  obtain ⟨front, htokens, -⟩ := h.exists_front
  rw [htokens, List.getLast?_concat]

/-- Before a token that is no end marker there is another one to come. -/
theorem Marked.lt_last (h : inp.Marked) (hi : (inp.tokenAt i).kind ≠ .eof) : i < inp.last :=
  Nat.lt_of_not_le fun hle => hi (h.kind_of_le hle)

end Input

/-! ## Activations -/

namespace Activation

/-- The call `e` is the call `d` or is made while `d` is active. -/
def Inside (e d : Activation) : Prop :=
  Relation.ReflTransGen (fun e d => e ∈ d.inner) e d

/-- The call `e` is made while the call `d` is active. -/
def During (e d : Activation) : Prop :=
  Relation.TransGen (fun e d => e ∈ d.inner) e d

/-- What is known of a call and of the calls directly in it. -/
structure IsLocal (inp : Input) (d : Activation) : Prop where
  depth_exit : d.exit.depth = d.entry.depth
  anyway : d.entry.pos + d.rule.takenAnyway ≤ d.exit.pos
  completes : d.completed = true → d.entry.pos + d.rule.taken ≤ d.exit.pos
  exit_le : d.exit.pos ≤ inp.last
  depth_inner : ∀ e ∈ d.inner, e.entry.depth = d.entry.depth + d.rule.cost
  limit_inner : ∀ cost, d.rule = .nested cost → ∀ e ∈ d.inner, e.entry.depth ≤ inp.limit
  mayCall : ∀ e ∈ d.inner, d.rule.MayCall e.rule d.entry.pos e.entry.pos

/-- All calls in `d` are local. -/
def Sound (inp : Input) (d : Activation) : Prop :=
  ∀ e : Activation, e.Inside d → e.IsLocal inp

variable {inp : Input} {d : Activation}

theorem Sound.isLocal (h : d.Sound inp) : d.IsLocal inp :=
  h d .refl

theorem sound_of_inner (h : d.IsLocal inp) (hinner : ∀ e ∈ d.inner, e.Sound inp) :
    d.Sound inp := by
  intro e he
  rcases Relation.ReflTransGen.cases_tail he with rfl | ⟨f, he, hf⟩
  · exact h
  · exact hinner f hf e he

end Activation

/-! ## Calls and parts of calls -/

variable {α β : Type} {inp : Input} {rule : Rule} {start c : Cursor} {low mid high n : Nat}
  {x : Descent α} {f : α → Descent β} {r : Run α} {why : Stop} {k : Kind}

/-- The run is nothing but the call `d` of the rule from the cursor `c` on. -/
structure Run.IsCall (r : Run α) (rule : Rule) (c : Cursor) (d : Activation) : Prop where
  calls_eq : r.calls = [d]
  rule_eq : d.rule = rule
  entry_eq : d.entry = c
  exit_eq : d.exit = r.cursor
  completed_eq : d.completed = r.result.isOk

/-- The run is a sound call of the rule from the cursor `c` on. -/
structure Called (inp : Input) (rule : Rule) (c : Cursor) (r : Run α) : Prop where
  ne_exhausted : r.result ≠ .error .exhausted
  exists_isCall : ∃ d : Activation, r.IsCall rule c d ∧ d.Sound inp

/-- In a call that began at `start`, the cursor `c` may stand after `low` tokens. -/
structure Reaches (inp : Input) (start : Cursor) (low : Nat) (c : Cursor) : Prop where
  depth_eq : c.depth = start.depth
  le_pos : low ≤ c.pos
  pos_le : c.pos ≤ inp.last

/-- The run is a part of a call of the rule from the cursor `start` on. It ends after at least `low`
tokens, and after at least `high` if it has a value. -/
structure PartOf (inp : Input) (rule : Rule) (start : Cursor) (low high : Nat) (r : Run α) :
    Prop where
  reaches : Reaches inp start low r.cursor
  completes : r.result.isOk = true → high ≤ r.cursor.pos
  ne_exhausted : r.result ≠ .error .exhausted
  calls : ∀ d ∈ r.calls, d.Sound inp ∧ d.entry.depth = start.depth ∧
    rule.MayCall d.rule start.pos d.entry.pos

theorem Reaches.refl (hc : c.pos ≤ inp.last) : Reaches inp c c.pos c :=
  ⟨rfl, Nat.le_refl _, hc⟩

theorem Reaches.next (h : Reaches inp start low c) (hlt : c.pos < inp.last) :
    Reaches inp start (low + 1) c.next :=
  ⟨h.depth_eq, Nat.succ_le_succ h.le_pos, hlt⟩

theorem Reaches.mono (h : Reaches inp start mid c) (hlow : low ≤ mid) :
    Reaches inp start low c :=
  ⟨h.depth_eq, Nat.le_trans hlow h.le_pos, h.pos_le⟩

/-! ### What a call does -/

namespace Called

theorem isLocal (h : Called inp rule c r) :
    ∃ inner, Activation.IsLocal inp ⟨rule, c, r.cursor, r.result.isOk, inner⟩ := by
  obtain ⟨⟨_, _, _, _, inner⟩, ⟨-, rfl, rfl, rfl, rfl⟩, hsound⟩ := h.exists_isCall
  exact ⟨inner, hsound.isLocal⟩

theorem depth_eq (h : Called inp rule c r) : r.cursor.depth = c.depth :=
  h.isLocal.elim fun _ hlocal => hlocal.depth_exit

theorem pos_le (h : Called inp rule c r) : r.cursor.pos ≤ inp.last :=
  h.isLocal.elim fun _ hlocal => hlocal.exit_le

theorem le_pos (h : Called inp rule c r) : c.pos ≤ r.cursor.pos :=
  h.isLocal.elim fun _ hlocal => Nat.le_trans (Nat.le_add_right _ _) hlocal.anyway

theorem completes (h : Called inp rule c r) (hok : r.result.isOk = true) :
    c.pos + rule.taken ≤ r.cursor.pos :=
  h.isLocal.elim fun _ hlocal => hlocal.completes hok

/-- A call is a part of the call that may make it. -/
theorem partOf {callee : Rule} (h : Called inp callee c r) (hc : Reaches inp start low c)
    (hcall : rule.MayCall callee start.pos c.pos)
    (hhigh : high ≤ c.pos + callee.taken) : PartOf inp rule start low high r where
  reaches := ⟨h.depth_eq.trans hc.depth_eq, Nat.le_trans hc.le_pos h.le_pos, h.pos_le⟩
  completes hok := Nat.le_trans hhigh (h.completes hok)
  ne_exhausted := h.ne_exhausted
  calls d hd := by
    obtain ⟨e, ⟨hcalls, rfl, rfl, -, -⟩, hsound⟩ := h.exists_isCall
    obtain rfl : d = e := by simpa [hcalls] using hd
    exact ⟨hsound, hc.depth_eq, hcall⟩

end Called

/-! ### Parts one after the other -/

namespace PartOf

theorem mono (h : PartOf inp rule start mid high r) (hlow : low ≤ mid) :
    PartOf inp rule start low high r :=
  { h with reaches := h.reaches.mono hlow }

theorem pure (a : α) (hc : Reaches inp start high c) (hle : low ≤ high) :
    PartOf inp rule start low high ((Pure.pure a : Descent α) c) :=
  ⟨hc.mono hle, fun _ => hc.le_pos, (by cases ·), fun _ hd => (by cases hd)⟩

theorem stop (hc : Reaches inp start low c) (hwhy : why ≠ .exhausted) :
    PartOf inp rule start low high ((Descent.stop why : Descent α) c) where
  reaches := hc
  completes h := by cases h
  ne_exhausted h := hwhy (Except.error.inj h)
  calls _ hd := by cases hd

/-- A part and what follows it if it has a value. -/
theorem bind (hx : PartOf inp rule start low mid (x c))
    (hf : ∀ a, (x c).result = .ok a → Reaches inp start mid (x c).cursor →
      PartOf inp rule start low high (f a (x c).cursor)) :
    PartOf inp rule start low high ((x >>= f) c) := by
  cases hresult : (x c).result with
  | error why =>
    rw [bind_of_error f hresult]
    have hwhy : why ≠ .exhausted := fun h => hx.ne_exhausted (h ▸ hresult)
    exact ⟨hx.reaches, (by cases ·), fun h => hwhy (Except.error.inj h), hx.calls⟩
  | ok a =>
    have hok : (x c).result.isOk = true := by rw [hresult]; rfl
    have hnext := hf a hresult ⟨hx.reaches.depth_eq, hx.completes hok, hx.reaches.pos_le⟩
    rw [bind_of_ok f hresult]
    exact ⟨hnext.reaches, hnext.completes, hnext.ne_exhausted,
      List.forall_mem_append.2 ⟨hx.calls, hnext.calls⟩⟩

/-- A call and what follows it. -/
theorem bind_called {callee : Rule} (h : Called inp callee c (x c)) (hc : Reaches inp start low c)
    (hcall : rule.MayCall callee start.pos c.pos)
    (hf : ∀ a c', Reaches inp start (c.pos + callee.taken) c' →
      PartOf inp rule start low high (f a c')) :
    PartOf inp rule start low high ((x >>= f) c) :=
  bind (h.partOf hc hcall (Nat.le_refl _)) fun a _ => hf a _

/-- A call where a body begins and what follows it. -/
theorem bind_first {callee : Rule} (h : Called inp callee c (x c)) (hc : c.pos ≤ inp.last)
    (hcallee : callee ∈ rule.first)
    (hf : ∀ a c', Reaches inp c (c.pos + callee.taken) c' →
      PartOf inp rule c c.pos high (f a c')) :
    PartOf inp rule c c.pos high ((x >>= f) c) :=
  bind_called h (.refl hc) (.inl ⟨hcallee, Nat.le_refl _⟩) hf

end PartOf

/-! ### The next tokens -/

namespace Input

theorem bind_peekNth (n : Nat) (f : Token → Descent β) (c : Cursor) :
    (inp.peekNth n >>= f) c = f (inp.tokenAt (c.pos + n)) c := rfl

theorem bind_peek (f : Token → Descent β) (c : Cursor) :
    (inp.peek >>= f) c = f (inp.tokenAt c.pos) c := rfl

theorem bind_advance (f : Token → Descent β) (h : (inp.tokenAt c.pos).kind ≠ .eof) :
    (inp.advance >>= f) c = f (inp.tokenAt c.pos) c.next := by
  have hadvance : inp.advance c = ⟨.ok (inp.tokenAt c.pos), c.next, []⟩ := by
    simp only [advance, if_neg h]
  exact (bind_of_ok f (by rw [hadvance])).trans (by rw [hadvance]; rfl)

theorem bind_advance_of_eof (f : Token → Descent β) (h : (inp.tokenAt c.pos).kind = .eof) :
    (inp.advance >>= f) c = f (inp.tokenAt c.pos) c := by
  have hadvance : inp.advance c = ⟨.ok (inp.tokenAt c.pos), c, []⟩ := by
    simp only [advance, if_pos h]
  exact (bind_of_ok f (by rw [hadvance])).trans (by rw [hadvance]; rfl)

theorem bind_eat_of_eq (f : Option Token → Descent β) (h : (inp.tokenAt c.pos).kind = k)
    (hk : k ≠ .eof) : (inp.eat k >>= f) c = f (some (inp.tokenAt c.pos)) c.next := by
  have heat : inp.eat k c = ⟨.ok (some (inp.tokenAt c.pos)), c.next, []⟩ := by
    rw [eat, bind_peek, if_pos h, bind_advance _ (h.trans_ne hk)]
    rfl
  exact (bind_of_ok f (by rw [heat])).trans (by rw [heat]; rfl)

theorem bind_eat_of_ne (f : Option Token → Descent β) (h : (inp.tokenAt c.pos).kind ≠ k) :
    (inp.eat k >>= f) c = f none c := by
  have heat : inp.eat k c = ⟨.ok none, c, []⟩ := by
    rw [eat, bind_peek, if_neg h]
    rfl
  exact (bind_of_ok f (by rw [heat])).trans (by rw [heat]; rfl)

/-- The fault of finding the next token instead of what is due. -/
def found (inp : Input) (c : Cursor) (expected : String) : ParseError :=
  .unexpectedToken (inp.tokenAt c.pos).start expected (inp.tokenAt c.pos).describe

theorem bind_expect_of_eq {expected : String} (f : Token → Descent β)
    (h : (inp.tokenAt c.pos).kind = k) (hk : k ≠ .eof) :
    (inp.expect k expected >>= f) c = f (inp.tokenAt c.pos) c.next := by
  have hexpect : inp.expect k expected c = ⟨.ok (inp.tokenAt c.pos), c.next, []⟩ := by
    rw [expect, bind_eat_of_eq _ h hk]
    rfl
  exact (bind_of_ok f (by rw [hexpect])).trans (by rw [hexpect]; rfl)

/-- The end marker is not taken. -/
theorem bind_expect_eof {expected : String} (f : Token → Descent β)
    (h : (inp.tokenAt c.pos).kind = .eof) :
    (inp.expect .eof expected >>= f) c = f (inp.tokenAt c.pos) c := by
  have heat : inp.eat .eof c = ⟨.ok (some (inp.tokenAt c.pos)), c, []⟩ := by
    rw [eat, bind_peek, if_pos h, bind_advance_of_eof _ h]
    rfl
  have hexpect : inp.expect .eof expected c = ⟨.ok (inp.tokenAt c.pos), c, []⟩ := by
    rw [expect, bind_of_ok _ (by rw [heat]), heat]
    rfl
  exact (bind_of_ok f (by rw [hexpect])).trans (by rw [hexpect]; rfl)

theorem bind_expect_of_ne {expected : String} (f : Token → Descent β)
    (h : (inp.tokenAt c.pos).kind ≠ k) : (inp.expect k expected >>= f) c =
      ⟨.error (.fault (inp.found c expected)), c, []⟩ := by
  have hexpect : inp.expect k expected c = ⟨.error (.fault (inp.found c expected)), c, []⟩ := by
    rw [expect, bind_eat_of_ne _ h]
    rfl
  exact (bind_of_error f (by rw [hexpect])).trans (by rw [hexpect])

end Input

namespace PartOf

theorem unexpected (hc : Reaches inp start low c) (expected : String) :
    PartOf inp rule start low high ((inp.unexpected expected : Descent α) c) :=
  .stop hc (by simp)

/-- A token that is taken and what follows it. -/
theorem bind_advance {f : Token → Descent β} (hinp : inp.Marked) (hc : Reaches inp start low c)
    (h : (inp.tokenAt c.pos).kind ≠ .eof)
    (hf : Reaches inp start (low + 1) c.next →
      PartOf inp rule start low high (f (inp.tokenAt c.pos) c.next)) :
    PartOf inp rule start low high ((inp.advance >>= f) c) := by
  rw [Input.bind_advance f h]
  exact hf (hc.next (hinp.lt_last h))

/-- A token that is due and what follows it. -/
theorem bind_expect {f : Token → Descent β} {expected : String} (hinp : inp.Marked)
    (hc : Reaches inp start low c) (hk : k ≠ .eof)
    (hf : (inp.tokenAt c.pos).kind = k → Reaches inp start (low + 1) c.next →
      PartOf inp rule start low high (f (inp.tokenAt c.pos) c.next)) :
    PartOf inp rule start low high ((inp.expect k expected >>= f) c) := by
  by_cases h : (inp.tokenAt c.pos).kind = k
  · rw [Input.bind_expect_of_eq f h hk]
    exact hf h (hc.next (hinp.lt_last (h.trans_ne hk)))
  · rw [Input.bind_expect_of_ne f h]
    exact .stop hc (by simp)

/-- A token that may stand here and what follows it or its absence. -/
theorem bind_eat {f : Option Token → Descent β} (hinp : inp.Marked) (hc : Reaches inp start low c)
    (hk : k ≠ .eof)
    (hsome : (inp.tokenAt c.pos).kind = k → Reaches inp start (low + 1) c.next →
      PartOf inp rule start low high (f (some (inp.tokenAt c.pos)) c.next))
    (hnone : (inp.tokenAt c.pos).kind ≠ k → PartOf inp rule start low high (f none c)) :
    PartOf inp rule start low high ((inp.eat k >>= f) c) := by
  by_cases h : (inp.tokenAt c.pos).kind = k
  · rw [Input.bind_eat_of_eq f h hk]
    exact hsome h (hc.next (hinp.lt_last (h.trans_ne hk)))
  · rw [Input.bind_eat_of_ne f h]
    exact hnone h

end PartOf

/-! ### Bodies and calls -/

/-- A body that does what its rule promises is a call of the rule. -/
theorem called_activate (hrule : ∀ cost, rule ≠ .nested cost)
    (h : PartOf inp rule c (c.pos + rule.takenAnyway) (c.pos + rule.taken) (x c)) :
    Called inp rule c (activate rule x c) where
  ne_exhausted := h.ne_exhausted
  exists_isCall := by
    refine ⟨_, ⟨rfl, rfl, rfl, rfl, rfl⟩, ?_⟩
    refine Activation.sound_of_inner ?_ fun e he => (h.calls e he).1
    exact {
      depth_exit := h.reaches.depth_eq
      anyway := h.reaches.le_pos
      completes := h.completes
      exit_le := h.reaches.pos_le
      depth_inner := fun e he => by
        rw [(h.calls e he).2.1, Rule.cost_eq_zero hrule, Nat.add_zero]
      limit_inner := fun cost hcost => absurd hcost (hrule cost)
      mayCall := fun e he => (h.calls e he).2.2 }

theorem Input.nestedBy_of_lt {cost : Nat} (x : Descent α) (h : inp.limit < c.depth + cost) :
    inp.nestedBy cost x c =
      ⟨.error (.fault (.depthExceeded (inp.tokenAt c.pos).start inp.limit)), c,
        [⟨.nested cost, c, c, false, []⟩]⟩ := by
  simp only [nestedBy, activate, if_pos h]
  rfl

theorem Input.nestedBy_of_le {cost : Nat} (x : Descent α) (h : c.depth + cost ≤ inp.limit) :
    inp.nestedBy cost x c =
      ⟨(x (c.deepen cost)).result, (x (c.deepen cost)).cursor.lift cost,
        [⟨.nested cost, c, (x (c.deepen cost)).cursor.lift cost, (x (c.deepen cost)).result.isOk,
          (x (c.deepen cost)).calls⟩]⟩ := by
  simp only [nestedBy, activate, if_neg (Nat.not_lt.2 h)]

/-- Brackets with a call in them are a call. -/
theorem called_nestedBy {cost : Nat} (hrule : rule ∈ (Rule.nested cost).first)
    (hc : c.pos ≤ inp.last) (hx : Called inp rule (c.deepen cost) (x (c.deepen cost))) :
    Called inp (.nested cost) c (inp.nestedBy cost x c) := by
  by_cases hlimit : inp.limit < c.depth + cost
  · -- too deep: nothing is called in the brackets
    rw [Input.nestedBy_of_lt x hlimit]
    refine ⟨by simp, _, ⟨rfl, rfl, rfl, rfl, rfl⟩, ?_⟩
    refine Activation.sound_of_inner ?_ fun e he => by cases he
    exact ⟨rfl, Nat.le_refl _, (by cases ·), hc, fun _ he => (by cases he),
      fun _ _ _ he => (by cases he), fun _ he => (by cases he)⟩
  · obtain ⟨d, ⟨hcalls, hd, hentry, -, -⟩, hsound⟩ := hx.exists_isCall
    have hmem : ∀ e ∈ (x (c.deepen cost)).calls, e = d := by simp [hcalls]
    have htaken : rule.taken = 1 := by
      simp only [Rule.first, List.mem_cons, List.not_mem_nil, or_false] at hrule
      rcases hrule with rfl | rfl <;> rfl
    have hcompletes := hx.completes
    rw [htaken] at hcompletes
    rw [Input.nestedBy_of_le x (Nat.le_of_not_lt hlimit)]
    refine ⟨hx.ne_exhausted, _, ⟨rfl, rfl, rfl, rfl, rfl⟩, ?_⟩
    refine Activation.sound_of_inner ?_ fun e he => hmem e he ▸ hsound
    exact {
      depth_exit := by
        rw [Cursor.depth_lift, hx.depth_eq, Cursor.depth_deepen, Nat.add_sub_cancel]
      anyway := hx.le_pos
      completes := hcompletes
      exit_le := hx.pos_le
      depth_inner := fun e he => by rw [hmem e he, hentry]; rfl
      limit_inner := fun k hk e he => by
        rw [hmem e he, hentry, Cursor.depth_deepen]
        exact Nat.le_of_not_lt hlimit
      mayCall := fun e he => by
        rw [hmem e he, hd, hentry]
        exact .inl ⟨hrule, Nat.le_refl _⟩ }

namespace PartOf

/-- A call in brackets, of which the opening one has been taken, up to the closing one. -/
theorem enclosed {γ : Type} {cost : Nat} {callee : Rule} {expected : String} (g : α → γ)
    (hinp : inp.Marked) (hc : Reaches inp start (start.pos + 1) c)
    (hnested : .nested cost ∈ rule.later) (hcallee : callee ∈ (Rule.nested cost).first)
    (hx : Called inp callee (c.deepen cost) (x (c.deepen cost))) (hk : k ≠ .eof) :
    PartOf inp rule start start.pos (start.pos + 1) ((do
      let a ← inp.nestedBy cost x
      let _ ← inp.expect k expected
      Pure.pure (g a)) c) := by
  refine bind_called (called_nestedBy hcallee hc.pos_le hx) (hc.mono (Nat.le_succ _))
    (.inr ⟨hnested, hc.le_pos⟩) fun a c' hc' => ?_
  have hc' := hc'.mono (Nat.le_add_right_of_le (Nat.le_of_succ_le hc.le_pos))
  refine bind_expect hinp hc' hk fun _ hclose => ?_
  exact .pure _ hclose (Nat.le_succ _)

/-- A loop whose rounds are parts of calls. Every round takes a token, so there are enough rounds
for all the tokens to come. -/
theorem whileAhead {loop : Loop} {test : Kind → Option β} {body : α → β → Descent α}
    (hinp : inp.Marked) (hloop : loop ≠ .arguments)
    (hcall : rule.MayCall (.round loop) start.pos low) (htest : test .eof = none)
    (hbody : ∀ a b c', low ≤ c'.pos → Reaches inp c' (c'.pos + 1) c'.next →
      PartOf inp (.round loop) c' (c'.pos + 1) (c'.pos + 1) (body a b c'.next))
    (hc : Reaches inp start low c) (hn : inp.last - c.pos < n) (a : α) :
    PartOf inp rule start low low (inp.whileAhead loop test body n a c) := by
  induction n generalizing a c with
  | zero => omega
  | succ n ih =>
    rw [Input.whileAhead, Input.bind_peek]
    cases hb : test (inp.tokenAt c.pos).kind with
    | none => exact .pure a hc (Nat.le_refl _)
    | some b =>
      have heof : (inp.tokenAt c.pos).kind ≠ .eof := fun h => by simp [h, htest] at hb
      have htaken : (Rule.round loop).taken = 1 ∧ (Rule.round loop).takenAnyway = 1 := by
        cases loop <;> first | exact ⟨rfl, rfl⟩ | exact absurd rfl hloop
      have hround : Called inp (.round loop) c (activate (.round loop)
          (do let _ ← inp.advance; body a b) c) := by
        refine called_activate (by simp) ?_
        rw [htaken.1, htaken.2, Input.bind_advance _ heof]
        exact hbody a b c hc.le_pos ((Reaches.refl hc.pos_le).next (hinp.lt_last heof))
      refine bind_called hround hc (hcall.mono hc.le_pos) fun a c' hc' => ?_
      -- the round has taken a token, so one round less is still enough
      rw [htaken.1] at hc'
      have hlt := hinp.lt_last heof
      have hle := hc.le_pos
      have hpos := hc'.le_pos
      exact ih (hc'.mono (by omega)) (by omega) a

/-- A loop of which the outcome is put into a larger value. -/
theorem bind_whileAhead {γ : Type} {loop : Loop} {test : Kind → Option β}
    {body : α → β → Descent α} (g : α → γ) (hinp : inp.Marked) (hloop : loop ≠ .arguments)
    (hcall : rule.MayCall (.round loop) start.pos low) (htest : test .eof = none)
    (hbody : ∀ a b c', low ≤ c'.pos → Reaches inp c' (c'.pos + 1) c'.next →
      PartOf inp (.round loop) c' (c'.pos + 1) (c'.pos + 1) (body a b c'.next))
    (hc : Reaches inp start low c) (hn : inp.last - c.pos < n) (a : α) :
    PartOf inp rule start low low
      ((inp.whileAhead loop test body n a >>= fun a => Pure.pure (g a)) c) :=
  bind (whileAhead hinp hloop hcall htest hbody hc hn a) fun _ _ hreached =>
    .pure _ hreached (Nat.le_refl _)

end PartOf

end MapExpr.Descent
