import MapExpr.Proofs.Print.Legible

/-!
# Rows of operands

A list of operands is written with a separator between any two of them. Its words, its nesting and
its derivation are those of its members in turn.

* `Piece.wordsOf_intercalate`: the words of a row;
* `Derives.grow`, `Derives.row`: a row is derived from its first member on;
* `Expr.eachPieces_eq` to `Expr.wordsOf_productPieces`: what is worked out by recursion on a list is
  worked out for each member.
-/

namespace MapExpr

open Piece (wordsOf)
open Word (symbol)

theorem RelationalOp.kind_ne_number (op : RelationalOp) : op.kind ≠ .number := by
  cases op <;> decide

theorem AdditiveOp.kind_ne_number (op : AdditiveOp) : op.kind ≠ .number := by
  cases op <;> decide

theorem MultiplicativeOp.kind_ne_number (op : MultiplicativeOp) : op.kind ≠ .number := by
  cases op <;> decide

/-! ## Words of rows -/

namespace Piece

theorem words_symbol {k : Kind} (hk : k ≠ .number) : (symbol k).words = [.symbol k] :=
  words_token hk _

theorem wordsOf_operator {k : Kind} (hk : k ≠ .number) : wordsOf (operator k) = [.symbol k] := by
  simp [operator, words_symbol hk]

theorem wordsOf_intercalate {sep : List Piece} {w : Word} (hsep : wordsOf sep = [w]) :
    ∀ Ps : List (List Piece), wordsOf (sep.intercalate Ps) = [w].intercalate (Ps.map wordsOf)
  | [] => rfl
  | [P] => by simp
  | P :: P' :: Ps => by
    have hrest := wordsOf_intercalate hsep (P' :: Ps)
    rw [List.map_cons] at hrest
    simp only [List.intercalate_cons_cons, wordsOf_append, List.map_cons, hsep, hrest]

/-- Every number in a row is a numeral. -/
theorem isSome_of_mem_wordsOf {P : List Piece} {w : Word} (h : w ∈ wordsOf P)
    (hk : w.kind = .number) : (Decimal.ofText? w.text).isSome = true := by
  obtain ⟨p, -, hw⟩ := List.mem_flatMap.1 h
  unfold words at hw
  split at hw
  · simp at hw
  · split at hw
    · rename_i hread
      rw [List.mem_singleton] at hw
      rwa [hw]
    · simp only [Word.optional, List.mem_append, List.mem_singleton] at hw
      rcases hw with hw | rfl
      · split at hw
        · rw [List.mem_singleton] at hw
          exact absurd hk (by rw [hw]; decide)
        · simp at hw
      · simp at hk
  · rw [List.mem_singleton] at hw
    rw [hw] at hk
    contradiction

end Piece

/-! ## Rows of operands -/

section Row

variable {α : Type} (many : List Word → List α → Nat → Prop) (words : α → List Word)
  {cost : α → Nat} {as : List α} {sep : Word}

/-- A row that takes further members at its end. -/
theorem Grammar.Derives.grow
    (next : ∀ a ∈ as, ∀ {ws done m}, many ws done m →
      many (ws ++ words a) (done ++ [a]) (max m (cost a)))
    {ws : List Word} {done : List α} {m : Nat} (h : many ws done m) :
    many (ws ++ as.flatMap words) (done ++ as) (max m ((as.map cost).foldr max 0)) := by
  induction as generalizing ws done m with
  | nil => simpa using h
  | cons a as ih =>
    have hall := ih (fun b hb => next b (List.mem_cons_of_mem a hb)) (next a List.mem_cons_self h)
    simpa [Nat.max_assoc] using hall

theorem intercalate_eq (x : α) (xs : List α) :
    ∀ rows : List (List α), [x].intercalate (xs :: rows) = xs ++ rows.flatMap (x :: ·)
  | [] => by simp
  | ys :: rows => by
    rw [List.intercalate_cons_cons, intercalate_eq x ys rows]
    simp

/-- A row of one or more members with a separator between them. -/
theorem Grammar.Derives.row (first : ∀ a ∈ as, many (words a) [a] (cost a))
    (next : ∀ a ∈ as, ∀ {ws done m}, many ws done m →
      many (ws ++ sep :: words a) (done ++ [a]) (max m (cost a)))
    (hne : as ≠ []) :
    many ([sep].intercalate (as.map words)) as ((as.map cost).foldr max 0) := by
  obtain ⟨a, as, rfl⟩ := List.exists_cons_of_ne_nil hne
  have hall := grow many (fun b => sep :: words b)
    (fun b hb => next b (List.mem_cons_of_mem a hb)) (first a List.mem_cons_self)
  rw [List.map_cons, intercalate_eq, List.flatMap_map]
  exact hall

end Row

/-! ## Lists as maps -/

theorem Expr.eachPieces_eq (es : List Expr) : Expr.eachPieces es = es.map Expr.pieces := by
  induction es <;> simp_all [Expr.eachPieces]

theorem Selector.eachPieces_eq (ss : List Selector) :
    Selector.eachPieces ss = ss.map Selector.pieces := by
  induction ss <;> simp_all [Selector.eachPieces]

theorem Step.eachPieces_eq (ss : List Step) : Step.eachPieces ss = ss.map Step.pieces := by
  induction ss <;> simp_all [Step.eachPieces]

theorem Expr.allNesting_eq (es : List Expr) :
    Expr.allNesting es = (es.map Expr.nesting).foldr max 0 := by
  induction es <;> simp_all [Expr.allNesting]

theorem Expr.argumentNesting_eq (es : List Expr) :
    Expr.argumentNesting es = (es.map fun e => e.nesting + 1).foldr max 0 := by
  induction es <;> simp_all [Expr.argumentNesting]

theorem Selector.allNesting_eq (ss : List Selector) :
    Selector.allNesting ss = (ss.map Selector.nesting).foldr max 0 := by
  induction ss <;> simp_all [Selector.allNesting]

theorem Step.allNesting_eq (ss : List Step) :
    Step.allNesting ss = (ss.map Step.nesting).foldr max 0 := by
  induction ss <;> simp_all [Step.allNesting]

theorem Expr.sumNesting_eq (es : List (AdditiveOp × Expr)) :
    Expr.sumNesting es = (es.map fun p => p.2.nesting).foldr max 0 := by
  induction es <;> simp_all [Expr.sumNesting]

theorem Expr.productNesting_eq (es : List (MultiplicativeOp × Expr)) :
    Expr.productNesting es = (es.map fun p => p.2.nesting).foldr max 0 := by
  induction es <;> simp_all [Expr.productNesting]

theorem Expr.wordsOf_sumPieces (es : List (AdditiveOp × Expr)) :
    wordsOf (Expr.sumPieces es) = es.flatMap fun p => symbol p.1.kind :: wordsOf p.2.pieces := by
  induction es with
  | nil => rfl
  | cons p es ih => simp [Expr.sumPieces, Piece.wordsOf_operator p.1.kind_ne_number, ih]

theorem Expr.wordsOf_productPieces (es : List (MultiplicativeOp × Expr)) :
    wordsOf (Expr.productPieces es) =
      es.flatMap fun p => symbol p.1.kind :: wordsOf p.2.pieces := by
  induction es with
  | nil => rfl
  | cons p es ih => simp [Expr.productPieces, Piece.wordsOf_operator p.1.kind_ne_number, ih]

end MapExpr
