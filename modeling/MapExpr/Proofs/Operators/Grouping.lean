import Mathlib.Data.List.Induction
import MapExpr.Proofs.Grammar.Chains
import MapExpr.Proofs.Operators.Row
import MapExpr.Proofs.Token.Spelled

/-!
# Grouping at the loosest operator

The tree of a row of operands. The row is split at every `or`, each part at every `and`, each of
these at its comparison, each side at every `+` and `-`, and each term at every `*`, `div` and
`mod`. A part without operators of a level is no node of the level, but what it is on the next one.

* `Operator.Separates`: what the levels have in common;
* `Row.product` to `Row.disjunction`: the trees, by splitting;
* `Fits`: words that derive a tree under a limit;
* `Row.fits_product` to `Row.fits_disjunction`: the words of a row derive its tree.
-/

namespace MapExpr

open Grammar (Category Derives Level)
open Parse (Operator)
open Word (symbol)

namespace Parse.Operator

/-! ## The operators that separate on each level -/

def or? : Operator → Option Unit
  | or => some ()
  | _ => none

def and? : Operator → Option Unit
  | and => some ()
  | _ => none

def relational? : Operator → Option RelationalOp
  | relational op => some op
  | _ => none

def additive? : Operator → Option AdditiveOp
  | additive op => some op
  | _ => none

def multiplicative? : Operator → Option MultiplicativeOp
  | multiplicative op => some op
  | _ => none

theorem strength_le (op : Operator) : op.strength ≤ 5 := by
  cases op <;> simp [strength]

def isRelational (op : Operator) : Bool :=
  (relational? op).isSome

/-- The operators that separate comparisons. -/
def isLogical (op : Operator) : Bool :=
  (or? op).isSome || (and? op).isSome

/-- The longest stretches of operators with neither `or` nor `and` in them. -/
def runs (ops : List Operator) : List (List Operator) :=
  ops.splitOnP isLogical

/-- The operators are split at every `or`, and then at every `and`. -/
theorem runs_eq (ops : List Operator) : runs ops =
    (ops.splitOnP fun op => (or? op).isSome).flatMap (List.splitOnP fun op => (and? op).isSome) :=
  splitOnP_or _ _ ops

/-- A row may be split by `sep` at every operator of the strength `k`, and what `sep` makes of an
operator has its kind. -/
structure Separates {Sep : Type} (sep : Operator → Option Sep) (kind : Sep → Kind) (k : Nat) :
    Prop where
  kind_eq {op : Operator} {s : Sep} : sep op = some s → kind s = op.kind
  isSome {op : Operator} : op.strength = k → (sep op).isSome = true

theorem separates_or : Separates or? (fun _ => .orWord) 1 := by
  constructor <;> intro op <;> cases op <;> simp [or?, strength, kind]

theorem separates_and : Separates and? (fun _ => .andWord) 2 := by
  constructor <;> intro op <;> cases op <;> simp [and?, strength, kind]

theorem separates_relational : Separates relational? RelationalOp.kind 3 := by
  constructor <;> intro op <;> cases op <;> simp +contextual [relational?, strength, kind]

theorem separates_additive : Separates additive? AdditiveOp.kind 4 := by
  constructor <;> intro op <;> cases op <;> simp +contextual [additive?, strength, kind]

theorem separates_multiplicative : Separates multiplicative? MultiplicativeOp.kind 5 := by
  constructor <;> intro op <;> cases op <;> simp +contextual [multiplicative?, strength, kind]

end Parse.Operator

namespace Row

variable {α β Sep : Type}

/-! ## The tree of a row -/

/-- The node that `make` makes of a row, unless the row has only one operand. -/
def node (make : Expr → List (Sep × Expr) → Expr) (r : Row Sep Expr) : Expr :=
  if r.rest.isEmpty then r.first else make r.first r.rest

section Tree

variable (leaf : α → Expr)

/-- The tree of a row with no looser operators than `*`, `div` and `mod`. -/
def product (r : Row Operator α) : Expr :=
  ((r.split Operator.multiplicative?).map fun p => leaf p.first).node .multiplicative

/-- The tree of a row with no looser operators than `+` and `-`. -/
def sum (r : Row Operator α) : Expr :=
  ((r.split Operator.additive?).map (product leaf)).node .additive

/-- The tree of a row with neither `or` nor `and`, and with at most one comparison. -/
def comparison (r : Row Operator α) : Expr :=
  ((r.split Operator.relational?).map (sum leaf)).node fun left rest =>
    match rest with
    | [] => left
    | (op, right) :: _ => .comparison op left right

/-- The tree of a row without `or`. -/
def conjunction (r : Row Operator α) : Expr :=
  ((r.split Operator.and?).map (comparison leaf)).node fun e es => .and (e :: es.map Prod.snd)

/-- The tree of a row. -/
def disjunction (r : Row Operator α) : Expr :=
  ((r.split Operator.or?).map (conjunction leaf)).node fun e es => .or (e :: es.map Prod.snd)

end Tree

end Row

/-! ## Derivations under a limit -/

/-- The words derive the tree, and nest less deeply than `d`. -/
def Fits (d : Nat) (c : Category) (ws : List Word) (t : c.Tree) : Prop :=
  ∃ n, Derives c ws t n ∧ n < d

namespace Row

variable {α β Sep : Type} {d : Nat}

/-- The words of a row, by the kinds of its operators and the words of its operands. -/
def words (kind : Sep → Kind) (wordsOf : β → List Word) (r : Row Sep β) : List Word :=
  r.flat (fun s => [symbol (kind s)]) wordsOf

/-- A chain is derived if its parts are, from the first one on. -/
theorem fits_chain {c : Category} {ℓ : Level} {make : Expr → List (Sep × Expr) → c.Tree}
    {kind : Sep → Kind}
    (hfirst : ∀ {ws e}, Fits d (.phrase ℓ) ws e → Fits d c ws (make e []))
    (hnext : ∀ {ws us e es s f}, Fits d c ws (make e es) → Fits d (.phrase ℓ) us f →
      Fits d c (ws ++ symbol (kind s) :: us) (make e (es ++ [(s, f)])))
    {wordsOf : β → List Word} {tree : β → Expr} {r : Row Sep β}
    (h : ∀ x ∈ r.operands, Fits d (.phrase ℓ) (wordsOf x) (tree x)) :
    Fits d c (r.words kind wordsOf) (make (tree r.first) (r.map tree).rest) := by
  obtain ⟨x, rest⟩ := r
  induction rest using List.reverseRecOn with
  | nil => simpa [words, flat, map] using hfirst (h x List.mem_cons_self)
  | append_singleton rest y ih =>
    have hrest := ih fun z hz => h z (by simp only [operands] at hz ⊢; grind)
    have hy := h y.2 (by simp [operands])
    simpa [words, flat, map] using hnext (s := y.1) hrest hy

/-- The parts between the operators of a level have tighter ones only. -/
theorem lt_strength_of_mem_split {sep : Operator → Option Sep} {kind : Sep → Kind} {k : Nat}
    {r p : Row Operator α} (hsep : Operator.Separates sep kind k)
    (hr : ∀ op ∈ r.operators, k ≤ op.strength) (hp : p ∈ (r.split sep).operands) :
    ∀ op ∈ p.operators, k < op.strength := by
  intro op hop
  obtain ⟨hmem, hnone⟩ := mem_of_mem_split hp hop
  refine Nat.lt_of_le_of_ne (hr op hmem) fun heq => ?_
  have hsome := hsep.isSome heq.symm
  rw [hnone] at hsome
  cases hsome

/-- A row is derived on a level if its parts are derived on the next one. -/
theorem fits_node (c : Category) (ℓ : Level) (chain : Expr → List (Sep × Expr) → c.Tree)
    {k : Level} {sep : Operator → Option Sep} {kind : Sep → Kind}
    {make : Expr → List (Sep × Expr) → Expr} (hsep : Operator.Separates sep kind k.strength)
    (hlift : k.strength ≤ ℓ.strength)
    (hfirst : ∀ {ws e}, Fits d (.phrase ℓ) ws e → Fits d c ws (chain e []))
    (hnext : ∀ {ws us e es s f}, Fits d c ws (chain e es) → Fits d (.phrase ℓ) us f →
      Fits d c (ws ++ symbol (kind s) :: us) (chain e (es ++ [(s, f)])))
    (hnode : ∀ {ws e es}, es ≠ [] → Fits d c ws (chain e es) → Fits d (.phrase k) ws (make e es))
    {wordsOf : α → List Word} {tree : Row Operator α → Expr} {r : Row Operator α}
    (h : ∀ p ∈ (r.split sep).operands,
      Fits d (.phrase ℓ) (p.words Operator.kind wordsOf) (tree p)) :
    Fits d (.phrase k) (r.words Operator.kind wordsOf)
      (((r.split sep).map tree).node make) := by
  have hwords : r.words Operator.kind wordsOf =
      (r.split sep).words kind (words Operator.kind wordsOf) :=
    (flat_split (fun op s hs => by rw [hsep.kind_eq hs]) wordsOf r).symm
  rw [hwords]
  have hchain := fits_chain hfirst hnext h
  generalize r.split sep = parts at *
  obtain ⟨p, rest⟩ := parts
  cases rest with
  | nil =>
    obtain ⟨n, hn, hlt⟩ := h p List.mem_cons_self
    simpa [words, flat, node, map] using ⟨n, .lift hlift hn, hlt⟩
  | cons x rest => exact hnode (by simp [map]) hchain

/-! ## The levels -/

section Levels

variable {leaf : α → Expr} {wordsOf : α → List Word} {r : Row Operator α}
  (hleaf : ∀ x, Fits d (.phrase .primary) (wordsOf x) (leaf x))

include hleaf

theorem fits_product (hr : ∀ op ∈ r.operators, 5 ≤ op.strength) :
    Fits d (.phrase .multiplicative) (r.words Operator.kind wordsOf) (r.product leaf) := by
  refine fits_node .factors .primary (fun e es => (e, es)) Operator.separates_multiplicative
    (by decide) ?_ ?_ ?_ ?_
  · exact fun ⟨n, h, hn⟩ => ⟨n, .firstFactor h, hn⟩
  · exact fun ⟨m, h, hm⟩ ⟨n, h', hn⟩ => ⟨_, .nextFactor h h', Nat.max_lt.2 ⟨hm, hn⟩⟩
  · exact fun hes ⟨n, h, hn⟩ => ⟨n, .multiplicative h hes, hn⟩
  · intro p hp
    have htight := lt_strength_of_mem_split Operator.separates_multiplicative hr hp
    have hrest : p.operators = [] := List.eq_nil_iff_forall_not_mem.2 fun op hop =>
      absurd (htight op hop) (Nat.not_lt.2 op.strength_le)
    obtain ⟨x, rest⟩ := p
    obtain rfl : rest = [] := List.map_eq_nil_iff.1 hrest
    simpa [words, flat] using hleaf x

theorem fits_sum (hr : ∀ op ∈ r.operators, 4 ≤ op.strength) :
    Fits d (.phrase .additive) (r.words Operator.kind wordsOf) (r.sum leaf) := by
  refine fits_node .terms .multiplicative (fun e es => (e, es)) Operator.separates_additive
    (by decide) ?_ ?_ ?_ ?_
  · exact fun ⟨n, h, hn⟩ => ⟨n, .firstTerm h, hn⟩
  · exact fun ⟨m, h, hm⟩ ⟨n, h', hn⟩ => ⟨_, .nextTerm h h', Nat.max_lt.2 ⟨hm, hn⟩⟩
  · exact fun hes ⟨n, h, hn⟩ => ⟨n, .additive h hes, hn⟩
  · exact fun p hp =>
      fits_product hleaf (lt_strength_of_mem_split Operator.separates_additive hr hp)

theorem fits_comparison (hr : ∀ op ∈ r.operators, 3 ≤ op.strength)
    (hcount : r.operators.countP Operator.isRelational ≤ 1) :
    Fits d (.phrase .comparison) (r.words Operator.kind wordsOf) (r.comparison leaf) := by
  have hsides : ∀ p ∈ (r.split Operator.relational?).operands,
      Fits d (.phrase .additive) (p.words Operator.kind wordsOf) (p.sum leaf) := fun p hp =>
    fits_sum hleaf (lt_strength_of_mem_split Operator.separates_relational hr hp)
  have hlength : (r.split Operator.relational?).rest.length ≤ 1 := by
    have hoperators := congrArg List.length (operators_split Operator.relational? r)
    rw [operators, List.length_map, List.length_filterMap_eq_countP] at hoperators
    exact hoperators ▸ hcount
  have hkind : ∀ op s, Operator.relational? op = some s →
      [symbol (RelationalOp.kind s)] = [symbol (Operator.kind op)] := fun op s hs => by
    rw [Operator.separates_relational.kind_eq hs]
  rw [words, ← flat_split hkind wordsOf r, comparison]
  generalize r.split Operator.relational? = parts at *
  obtain ⟨left, rest⟩ := parts
  obtain ⟨m, hleft, hm⟩ := hsides left List.mem_cons_self
  cases rest with
  | nil => simpa [flat, node, map] using ⟨m, .lift (by decide) hleft, hm⟩
  | cons x rest =>
    obtain rfl : rest = [] := List.length_eq_zero_iff.1 (by simpa using hlength)
    obtain ⟨n, hright, hn⟩ := hsides x.2 (by simp [operands])
    have hcomparison : Derives (.phrase .comparison) (left.words Operator.kind wordsOf ++
        symbol x.1.kind :: x.2.words Operator.kind wordsOf)
        (.comparison x.1 (left.sum leaf) (x.2.sum leaf)) (max m n) := .comparison hleft hright
    exact ⟨max m n, by simpa [words, flat, node, map] using hcomparison, Nat.max_lt.2 ⟨hm, hn⟩⟩

theorem fits_conjunction (hr : ∀ op ∈ r.operators, 2 ≤ op.strength)
    (hruns : ∀ run ∈ r.operators.splitOnP fun op => (Operator.and? op).isSome,
      run.countP Operator.isRelational ≤ 1) :
    Fits d (.phrase .and) (r.words Operator.kind wordsOf) (r.conjunction leaf) := by
  refine fits_node .conjuncts .comparison (fun e es => e :: es.map Prod.snd)
    Operator.separates_and (by decide) ?_ ?_ ?_ ?_
  · exact fun ⟨n, h, hn⟩ => ⟨n, .firstConjunct h, hn⟩
  · intro ws us e es s f ⟨m, h, hm⟩ ⟨n, h', hn⟩
    refine ⟨max m n, ?_, Nat.max_lt.2 ⟨hm, hn⟩⟩
    rw [List.map_append]
    exact .nextConjunct h h'
  · intro ws e es hes ⟨n, h, hn⟩
    exact ⟨n, .and h (Nat.succ_le_succ (by simpa [Nat.one_le_iff_ne_zero])), hn⟩
  · intro p hp
    have htight := lt_strength_of_mem_split Operator.separates_and hr hp
    refine fits_comparison hleaf htight (hruns _ ?_)
    rw [← map_operators_split]
    exact List.mem_map_of_mem hp

theorem fits_disjunction
    (hruns : ∀ run ∈ Operator.runs r.operators, run.countP Operator.isRelational ≤ 1) :
    Fits d (.phrase .or) (r.words Operator.kind wordsOf) (r.disjunction leaf) := by
  refine fits_node .disjuncts .and (fun e es => e :: es.map Prod.snd)
    Operator.separates_or (by decide) ?_ ?_ ?_ ?_
  · exact fun ⟨n, h, hn⟩ => ⟨n, .firstDisjunct h, hn⟩
  · intro ws us e es s f ⟨m, h, hm⟩ ⟨n, h', hn⟩
    refine ⟨max m n, ?_, Nat.max_lt.2 ⟨hm, hn⟩⟩
    rw [List.map_append]
    exact .nextDisjunct h h'
  · intro ws e es hes ⟨n, h, hn⟩
    exact ⟨n, .or h (Nat.succ_le_succ (by simpa [Nat.one_le_iff_ne_zero])), hn⟩
  · intro p hp
    have hr : ∀ op ∈ r.operators, 1 ≤ op.strength := fun op _ => by
      cases op <;> simp [Operator.strength]
    have htight := lt_strength_of_mem_split Operator.separates_or hr hp
    refine fits_conjunction hleaf htight fun run hrun => hruns run ?_
    rw [Operator.runs_eq, ← map_operators_split]
    exact List.mem_flatMap.2 ⟨_, List.mem_map_of_mem hp, hrun⟩

end Levels

end Row

end MapExpr
