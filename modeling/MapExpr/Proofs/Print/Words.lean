import MapExpr.Proofs.Print.Rows

/-!
# The words of a node

What the pieces of a node are read as, put together from what its parts are read as.

* `Word.row`: rows of words with a mark between any two of them;
* `Expr.wordsOf_or` to `Predicate.wordsOf_filterThenIndex`: the nodes that have parts.
-/

namespace MapExpr

open Piece (wordsOf)
open Word (optional symbol)

namespace Word

/-- Rows of words one after the other, with the mark of the kind `k` between any two. -/
def row (k : Kind) (wss : List (List Word)) : List Word :=
  [symbol k].intercalate wss

@[simp] theorem row_singleton (k : Kind) (ws : List Word) : row k [ws] = ws := by
  simp [row]

theorem row_concat {k : Kind} {wss : List (List Word)} (h : wss ≠ []) (ws : List Word) :
    row k (wss ++ [ws]) = row k wss ++ symbol k :: ws := by
  obtain ⟨us, wss, rfl⟩ := List.exists_cons_of_ne_nil h
  simp [row, List.cons_append, intercalate_eq]

end Word

open Word (row)

/-! ## Numbers -/

theorem Binary64.Spells.ofText? {x : Binary64} {places : Nat} {text : String}
    (h : x.Spells places text) :
    ∃ d, Decimal.ofText? text = some d ∧ Binary64.ofDecimal d = x := by
  obtain ⟨n, rfl, hread⟩ := h
  exact ⟨_, Decimal.ofText?_numeral _ _ _, hread⟩

/-- A numeral is read as one word. -/
theorem Binary64.Spells.wordsOf_token {x : Binary64} {places : Nat} {text : String}
    (h : x.Spells places text) : wordsOf [.token .number text] = [⟨.number, text⟩] := by
  obtain ⟨d, hread, -⟩ := h.ofText?
  simp [Piece.words_number hread]

/-! ## Expressions -/

variable (es : List Expr) (ss : List Selector)

theorem Expr.wordsOf_or : wordsOf (Expr.or es).pieces =
    row .orWord (es.map fun e => wordsOf e.pieces) := by
  rw [Expr.pieces, Piece.wordsOf_intercalate (Piece.wordsOf_operator (by decide)),
    Expr.eachPieces_eq, List.map_map]
  rfl

theorem Expr.wordsOf_and : wordsOf (Expr.and es).pieces =
    row .andWord (es.map fun e => wordsOf e.pieces) := by
  rw [Expr.pieces, Piece.wordsOf_intercalate (Piece.wordsOf_operator (by decide)),
    Expr.eachPieces_eq, List.map_map]
  rfl

theorem Expr.wordsOf_union : wordsOf (Expr.union ss).pieces =
    row .pipe (ss.map fun s => wordsOf s.pieces) := by
  rw [Expr.pieces, Piece.wordsOf_intercalate (Piece.wordsOf_operator (by decide)),
    Selector.eachPieces_eq, List.map_map]
  rfl

theorem Expr.wordsOf_comparison (op : RelationalOp) (e f : Expr) :
    wordsOf (Expr.comparison op e f).pieces =
      wordsOf e.pieces ++ symbol op.kind :: wordsOf f.pieces := by
  simp [Expr.pieces, Piece.wordsOf_operator op.kind_ne_number]

theorem Expr.wordsOf_additive (e : Expr) (es : List (AdditiveOp × Expr)) :
    wordsOf (Expr.additive e es).pieces =
      wordsOf e.pieces ++ es.flatMap fun p => symbol p.1.kind :: wordsOf p.2.pieces := by
  rw [Expr.pieces, Piece.wordsOf_append, Expr.wordsOf_sumPieces]

theorem Expr.wordsOf_multiplicative (e : Expr) (es : List (MultiplicativeOp × Expr)) :
    wordsOf (Expr.multiplicative e es).pieces =
      wordsOf e.pieces ++ es.flatMap fun p => symbol p.1.kind :: wordsOf p.2.pieces := by
  rw [Expr.pieces, Piece.wordsOf_append, Expr.wordsOf_productPieces]

theorem Expr.wordsOf_group (e : Expr) : wordsOf (Expr.group e).pieces =
    symbol .leftParen :: (wordsOf e.pieces ++ [symbol .rightParen]) := by
  simp [Expr.pieces, Piece.words_symbol]

/-- The words of the arguments of a call. -/
theorem Expr.wordsOf_arguments :
    wordsOf ([Piece.symbol .comma, .blank].intercalate (Expr.eachPieces es)) =
      row .comma (es.map fun e => wordsOf e.pieces) := by
  have hsep : wordsOf [Piece.symbol .comma, .blank] = [symbol .comma] := by
    simp [Piece.words_symbol]
  rw [Piece.wordsOf_intercalate hsep, Expr.eachPieces_eq, List.map_map]
  rfl

theorem Call.wordsOf_mk (withDollar : Bool) (x : String) :
    wordsOf (Call.mk withDollar x es).pieces =
      optional withDollar (symbol .dollar) ++ ⟨.identifier, x⟩ :: symbol .leftParen ::
        (row .comma (es.map fun e => wordsOf e.pieces) ++ [symbol .rightParen]) := by
  cases withDollar <;>
    simp [Call.pieces, Piece.words_symbol, Piece.words_token, Expr.wordsOf_arguments]

/-! ## Selectors -/

theorem Selector.wordsOf_steps (absolute : Bool) (ts : List Step) :
    wordsOf (Selector.steps absolute ts).pieces =
      optional absolute (symbol .slash) ++ row .slash (ts.map fun t => wordsOf t.pieces) := by
  have hsep : wordsOf [Piece.symbol .slash] = [symbol .slash] := by
    simp [Piece.words_symbol]
  have hsteps : wordsOf ([Piece.symbol .slash].intercalate (Step.eachPieces ts)) =
      row .slash (ts.map fun t => wordsOf t.pieces) := by
    rw [Piece.wordsOf_intercalate hsep, Step.eachPieces_eq, List.map_map]
    rfl
  cases absolute <;> simp [Selector.pieces, Piece.words_symbol, hsteps]

theorem Selector.wordsOf_scoped (s : Selector) : wordsOf (Selector.scoped s).pieces =
    symbol .dollar :: symbol .leftParen :: (wordsOf s.pieces ++ [symbol .rightParen]) := by
  simp [Selector.pieces, Piece.words_symbol]

theorem Step.wordsOf_named (isAttribute : Bool) (x : QName) (p : Predicate) :
    wordsOf (Step.named isAttribute x p).pieces =
      optional isAttribute (symbol .atSign) ++ wordsOf x.pieces ++ wordsOf p.pieces := by
  cases isAttribute <;> simp [Step.pieces, Piece.words_symbol]

theorem Index.wordsOf_pieces (i : Index) :
    wordsOf (Index.pieces i) =
      [symbol .leftBracket, ⟨.number, toString i.toInt⟩, symbol .rightBracket] := by
  have hread := Decimal.ofText?_numeral (i.toInt < 0) 0 i.toInt.natAbs
  rw [← Index.toString_eq] at hread
  simp only [Index.pieces, Piece.wordsOf_cons, Piece.words_number hread]
  rfl

theorem Predicate.wordsOf_filter (f : Filter) : wordsOf (Predicate.filter f).pieces =
    symbol .leftBracket :: (wordsOf f.pieces ++ [symbol .rightBracket]) := by
  simp [Predicate.pieces, Piece.words_symbol]

theorem Predicate.wordsOf_filterThenIndex (f : Filter) (i : Index) :
    wordsOf (Predicate.filterThenIndex f i).pieces =
      symbol .leftBracket :: (wordsOf f.pieces ++ symbol .rightBracket :: wordsOf i.pieces) := by
  simp [Predicate.pieces, Piece.words_symbol]

end MapExpr
