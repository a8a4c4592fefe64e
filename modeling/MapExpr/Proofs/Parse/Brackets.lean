import MapExpr.Parse.Hole
import MapExpr.Token.Basic
import Mathlib.Algebra.Ring.Nat
import Mathlib.Data.List.MinMax
import Mathlib.Order.Nat

/-!
# Open brackets

An account of the brackets of a text that is kept on its tokens alone. Every opening bracket has a
cost, and the brackets that are open after a token are those that were opened up to it and not yet
closed, the newest first.

* `Token.parenCost`, `Token.bracketCost`: what an opening bracket costs, by the tokens next to it;
* `openCosts ts n`: the costs of the brackets that are open after the first `n` tokens of `ts`;
* `openAt`, `bracketNeed`: their sum after a token, and one more than the greatest sum;
* `IsFirstBeyond`: the opening bracket at which the account goes beyond a limit.
-/

namespace MapExpr

/-- Neither a parenthesis, nor a bracket, nor the end of the text. -/
def Kind.isNeutral : Kind → Bool
  | leftParen | rightParen | leftBracket | rightBracket | eof => false
  | _ => true

namespace Token

open Parse (filterCost)

/-- The next token is of the kind `k`. -/
def nextIs (k : Kind) (rest : List Token) : Bool :=
  rest.head?.any (·.kind == k)

/-- A number without a point and a closing bracket are next. -/
def indexIsNext : List Token → Bool
  | t :: u :: _ => t.isWhole && u.kind == .rightBracket
  | _ => false

/-- The cost of an opening parenthesis between the token `before` and the tokens `rest`: none
between a name and a closing parenthesis. -/
def parenCost (before : Option Token) (rest : List Token) : Nat :=
  if before.any (·.kind == .identifier) && nextIs .rightParen rest then 0 else 1

/-- The cost of an opening bracket before the tokens `rest`: none if it holds nothing or a number
without a point. -/
def bracketCost (rest : List Token) : Nat :=
  if nextIs .rightBracket rest || indexIsNext rest then 0 else filterCost

/-- The costs of the open brackets after the token `t`, if they are `costs` before it. -/
def account (before : Option Token) (t : Token) (rest : List Token) (costs : List Nat) :
    List Nat :=
  match t.kind with
  | .leftParen => parenCost before rest :: costs
  | .leftBracket => bracketCost rest :: costs
  | .rightParen | .rightBracket => costs.tail
  | _ => costs

/-- A parenthesis or bracket that opens. -/
def isOpening (t : Token) : Bool :=
  t.kind == .leftParen || t.kind == .leftBracket

variable {before : Option Token} {t : Token} {rest : List Token} {costs : List Nat}

theorem isOpening_eq_false (h : t.kind.isNeutral = true) : t.isOpening = false := by
  unfold isOpening
  cases hkind : t.kind <;> first | rfl | simp [hkind, Kind.isNeutral] at h

theorem account_eq_self (h : t.kind.isNeutral = true) : t.account before rest costs = costs := by
  unfold account
  split <;> first | rfl | simp_all [Kind.isNeutral]

/-- Only an opening bracket with a cost adds to the account. -/
theorem exists_cons_of_sum_lt (h : costs.sum < (t.account before rest costs).sum) :
    t.isOpening = true ∧ ∃ cost, 0 < cost ∧ t.account before rest costs = cost :: costs := by
  have htail : costs.tail.sum ≤ costs.sum := by cases costs <;> simp
  unfold account isOpening at *
  split at h
  · rename_i hkind
    exact ⟨by simp [hkind], _, by simpa using h, rfl⟩
  · rename_i hkind
    exact ⟨by simp [hkind], _, by simpa using h, rfl⟩
  all_goals omega

end Token

/-- The costs of the brackets that are open after the first `n` tokens, the newest first. -/
def openCosts (ts : List Token) : Nat → List Nat
  | 0 => []
  | n + 1 =>
    match ts[n]? with
    | some t => t.account (ts.take n).getLast? (ts.drop (n + 1)) (openCosts ts n)
    | none => openCosts ts n

theorem openCosts_succ {ts : List Token} {i : Nat} {t : Token} (h : ts[i]? = some t) :
    openCosts ts (i + 1) =
      t.account (ts.take i).getLast? (ts.drop (i + 1)) (openCosts ts i) := by
  simp only [openCosts, h]

theorem openCosts_of_sum_lt {ts : List Token} {i : Nat} {t : Token} (ht : ts[i]? = some t)
    (hlt : (openCosts ts i).sum < (openCosts ts (i + 1)).sum) :
    t.isOpening = true ∧ ∃ cost, 0 < cost ∧ openCosts ts (i + 1) = cost :: openCosts ts i := by
  rw [openCosts_succ ht] at hlt ⊢
  exact Token.exists_cons_of_sum_lt hlt

/-- The sum of the costs of the brackets opened at or before token `i` and not yet closed there. -/
def openAt (ts : List Token) (i : Nat) : Nat :=
  (openCosts ts (i + 1)).sum

/-- The limit that the brackets of a text take up. -/
def bracketNeed (ts : List Token) : Nat :=
  1 + ((List.range ts.length).map (openAt ts)).foldr max 0

/-- A limit covers the brackets if it covers those that are open after every part of the text. -/
theorem bracketNeed_le_iff {ts : List Token} {d : Nat} :
    bracketNeed ts ≤ d ↔ ∀ n ≤ ts.length, 1 + (openCosts ts n).sum ≤ d := by
  unfold bracketNeed
  constructor
  · intro h n hn
    cases n with
    | zero => simp only [openCosts, List.sum_nil]; omega
    | succ n =>
      have hmem : openAt ts n ∈ (List.range ts.length).map (openAt ts) :=
        List.mem_map_of_mem (List.mem_range.2 hn)
      have hmax := List.le_max_of_le' 0 hmem (Nat.le_refl _)
      have hopen : openAt ts n = (openCosts ts (n + 1)).sum := rfl
      omega
  · intro h
    have hmax : ((List.range ts.length).map (openAt ts)).foldr max ⊥ ≤ d - 1 := by
      refine List.max_le_of_forall_le _ _ fun x hx => ?_
      obtain ⟨i, hi, rfl⟩ := List.mem_map.1 hx
      exact Nat.le_sub_of_add_le' (h (i + 1) (List.mem_range.1 hi))
    have hzero := h 0 (Nat.zero_le _)
    rw [Nat.add_comm]
    exact Nat.add_le_of_le_sub (Nat.le_of_add_right_le hzero) hmax

/-- Token `i` is the first opening bracket that goes beyond the limit `d`. -/
def IsFirstBeyond (ts : List Token) (d i : Nat) : Prop :=
  (∃ t, ts[i]? = some t ∧ t.isOpening = true ∧ d < 1 + openAt ts i) ∧
    ∀ j < i, ∀ t, ts[j]? = some t → t.isOpening = true → 1 + openAt ts j ≤ d

/-- A positive limit that does not cover the brackets has a first one that goes beyond it. -/
theorem exists_first_beyond {ts : List Token} {d : Nat} (hpos : 0 < d) (hd : d < bracketNeed ts) :
    ∃ i t, ts[i]? = some t ∧ t.isOpening = true ∧ d < 1 + openAt ts i ∧
      ∀ n ≤ i, 1 + (openCosts ts n).sum ≤ d := by
  have hex : ∃ n, n ≤ ts.length ∧ d < 1 + (openCosts ts n).sum := by
    by_contra hnot
    refine Nat.not_le.2 hd (bracketNeed_le_iff.2 fun n hn => ?_)
    exact Nat.not_lt.1 fun hlt => hnot ⟨n, hn, hlt⟩
  obtain ⟨hle, hlimit⟩ := Nat.find_spec hex
  have hmin : ∀ n < Nat.find hex, 1 + (openCosts ts n).sum ≤ d := fun n hn =>
    Nat.not_lt.1 fun hlt => Nat.find_min hex hn ⟨Nat.le_trans (Nat.le_of_lt hn) hle, hlt⟩
  obtain ⟨i, hi⟩ : ∃ i, Nat.find hex = i + 1 := by
    refine Nat.exists_eq_add_one.2 (Nat.pos_of_ne_zero fun hzero => ?_)
    rw [hzero, openCosts, List.sum_nil] at hlimit
    omega
  rw [hi] at hle hlimit hmin
  have ht : ts[i]? = some ts[i] := List.getElem?_eq_getElem hle
  have hsum : (openCosts ts i).sum < (openCosts ts (i + 1)).sum :=
    Nat.lt_of_add_lt_add_left (Nat.lt_of_le_of_lt (hmin i (Nat.lt_succ_self i)) hlimit)
  exact ⟨i, ts[i], ht, (openCosts_of_sum_lt ht hsum).1, hlimit,
    fun n hn => hmin n (Nat.lt_succ_of_le hn)⟩

end MapExpr
