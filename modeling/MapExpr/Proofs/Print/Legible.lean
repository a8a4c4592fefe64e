import MapExpr.Proofs.Expr.WellFormed
import MapExpr.Proofs.Print.Pieces

/-!
# Legible expressions

The pieces of a well-formed expression are scanned one by one. What follows a name, a numeral or a
single dot in a text is never a part of it: an operator has blanks around it, and every other token
that may follow is a mark.

* `Expr.legible`: the pieces of a well-formed expression are legible;
* `Expr.tokens_print`: the tokens of its text.
-/

namespace MapExpr

open Piece (charsOf wordsOf)
open Token (Delimited)

/-! ## Names and constants -/

theorem Constant.legible {c : Constant} (h : c.isWellFormed = true) : Legible [c.piece] := by
  cases c with
  | number x => exact .number x
  | system => exact .system
  | literal contents => exact .literal h

theorem LocalName.legible {x : LocalName} {Q : List Piece} (h : x.isWellFormed = true)
    (hQ : Legible Q) (hdelimited : Delimited (charsOf Q)) : Legible (x.piece :: Q) := by
  cases x with
  | wildcard => exact .plain rfl hQ
  | name x => exact .name h hQ hdelimited

/-- A local name does not begin with a colon. -/
theorem LocalName.chars_eq_cons {x : LocalName} {Q : List Piece} (h : x.isWellFormed = true) :
    ∃ c s, charsOf (x.piece :: Q) = c :: s ∧ c ≠ ':' := by
  cases x with
  | wildcard => exact ⟨'*', charsOf Q, rfl, by decide⟩
  | name x =>
    simp only [isWellFormed, Name.isFree] at h
    split at h
    · simp at h
    · rename_i c s hlist
      refine ⟨c, s ++ charsOf Q, by simp [piece, Piece.text, hlist], ?_⟩
      rintro rfl
      exact absurd h (by simp [show Name.isStart ':' = false by decide])

theorem QName.legible {x : QName} {Q : List Piece} (h : x.isWellFormed = true)
    (hQ : Legible Q) (hdelimited : Delimited (charsOf Q)) : Legible (x.pieces ++ Q) := by
  obtain ⟨qualifier, x⟩ := x
  cases qualifier with
  | none => exact LocalName.legible (by simpa [isWellFormed] using h) hQ hdelimited
  | some q =>
    simp only [isWellFormed, Option.all_some, Bool.and_eq_true] at h
    have hlocal := LocalName.legible h.2 hQ hdelimited
    exact .name h.1 (.colon hlocal (LocalName.chars_eq_cons h.2))
      (Piece.delimited_symbol _ rfl)

theorem Index.legible (i : Index) {Q : List Piece} (hQ : Legible Q) :
    Legible (Index.pieces i ++ Q) :=
  .plain rfl <| Legible.before rfl rfl (.index i) hQ

/-! ## Expressions -/

theorem Expr.delimited_sumPieces (es : List (AdditiveOp × Expr)) :
    Delimited (charsOf (Expr.sumPieces es)) := by
  cases es with
  | nil => simp [Expr.sumPieces]
  | cons e es =>
    rw [Expr.sumPieces, List.append_assoc]
    exact Piece.delimited_operator _ _

theorem Expr.delimited_productPieces (es : List (MultiplicativeOp × Expr)) :
    Delimited (charsOf (Expr.productPieces es)) := by
  cases es with
  | nil => simp [Expr.productPieces]
  | cons e es =>
    rw [Expr.productPieces, List.append_assoc]
    exact Piece.delimited_operator _ _

theorem Predicate.delimited_pieces (p : Predicate) : Delimited (charsOf p.pieces) := by
  cases p with
  | absent => simp [Predicate.pieces]
  | index i => exact Piece.delimited_symbol _ rfl
  | filter f => exact Piece.delimited_symbol _ rfl
  | filterThenIndex f i => exact Piece.delimited_symbol _ rfl

theorem Filter.pieces_operator {e : Expr} (h : ∀ x, e ≠ .constant (.number x)) :
    Filter.pieces (.operator e) = e.pieces := by
  unfold Filter.pieces
  split <;> simp_all

mutual

theorem Expr.legible : ∀ {e : Expr}, e.isWellFormed = true → Legible e.pieces
  | .constant c, h => Constant.legible h
  | .variableRef x, h => .plain rfl (.name h .nil (by simp))
  | .call c, h => Call.legible h
  | .group e, h => by
    simp only [Expr.isWellFormed] at h
    exact .plain rfl <| .before rfl rfl (Expr.legible h) .nil
  | .selector s, h => Selector.legible h
  | .or es, h => by
    simp only [Expr.isWellFormed, Bool.and_eq_true] at h
    exact .intercalate (.infixes rfl) (Piece.delimited_operator · _) (Expr.legible_each h.2)
  | .and es, h => by
    simp only [Expr.isWellFormed, Bool.and_eq_true] at h
    exact .intercalate (.infixes rfl) (Piece.delimited_operator · _) (Expr.legible_each h.2)
  | .comparison o e f, h => by
    simp only [Expr.isWellFormed, Bool.and_eq_true] at h
    have hright := Legible.infixes (k := o.kind) (by cases o <;> rfl) (Expr.legible h.2.2)
    rw [Expr.pieces, List.append_assoc]
    exact (Expr.legible h.1.2).append hright (Piece.delimited_operator _ _)
  | .additive e es, h => by
    simp only [Expr.isWellFormed, Bool.and_eq_true] at h
    exact (Expr.legible h.2.1.2).append (Expr.legible_sums h.2.2) (Expr.delimited_sumPieces es)
  | .multiplicative e es, h => by
    simp only [Expr.isWellFormed, Bool.and_eq_true] at h
    exact (Expr.legible h.2.1.2).append (Expr.legible_products h.2.2)
      (Expr.delimited_productPieces es)
  | .union ss, h => by
    simp only [Expr.isWellFormed, Bool.and_eq_true] at h
    exact .intercalate (.infixes rfl) (Piece.delimited_operator · _) (Selector.legible_each h.2)

theorem Expr.legible_each {least : Nat} : ∀ {es : List Expr},
    Expr.allWellFormed least es = true → ∀ P ∈ Expr.eachPieces es, Legible P
  | [], _ => by simp [Expr.eachPieces]
  | e :: es, h => by
    simp only [Expr.allWellFormed, Bool.and_eq_true] at h
    exact List.forall_mem_cons.2 ⟨Expr.legible h.1.2, Expr.legible_each h.2⟩

theorem Expr.legible_sums : ∀ {es : List (AdditiveOp × Expr)},
    Expr.sumsWellFormed es = true → Legible (Expr.sumPieces es)
  | [], _ => .nil
  | (o, e) :: es, h => by
    simp only [Expr.sumsWellFormed, Bool.and_eq_true] at h
    have hrest := (Expr.legible h.1.2).append (Expr.legible_sums h.2) (Expr.delimited_sumPieces es)
    rw [Expr.sumPieces, List.append_assoc]
    exact .infixes (by cases o <;> rfl) hrest

theorem Expr.legible_products : ∀ {es : List (MultiplicativeOp × Expr)},
    Expr.productsWellFormed es = true → Legible (Expr.productPieces es)
  | [], _ => .nil
  | (o, e) :: es, h => by
    simp only [Expr.productsWellFormed, Bool.and_eq_true] at h
    have hrest := (Expr.legible h.1.2).append (Expr.legible_products h.2)
      (Expr.delimited_productPieces es)
    rw [Expr.productPieces, List.append_assoc]
    exact .infixes (by cases o <;> rfl) hrest

theorem Call.legible : ∀ {c : Call}, c.isWellFormed = true → Legible c.pieces
  | .mk withDollar x es, h => by
    simp only [Call.isWellFormed, Bool.and_eq_true] at h
    have hargs : Legible ([Piece.symbol .comma, .blank].intercalate (Expr.eachPieces es)) :=
      .intercalate (fun hQ => .plain rfl hQ.blank)
        (fun _ => Piece.delimited_symbol _ rfl) (Expr.legible_each h.2)
    have hclosed := hargs.before (k := .rightParen) rfl rfl .nil
    have hname := Legible.name h.1 (.plain (k := .leftParen) rfl hclosed)
      (Piece.delimited_symbol _ rfl)
    cases withDollar with
    | true => exact .plain rfl hname
    | false => exact hname

theorem Selector.legible : ∀ {s : Selector}, s.isWellFormed = true → Legible s.pieces
  | .steps absolute ss, h => by
    simp only [Selector.isWellFormed, Bool.and_eq_true] at h
    have hsteps : Legible ([Piece.symbol .slash].intercalate (Step.eachPieces ss)) :=
      .intercalate (.plain rfl) (fun _ => Piece.delimited_symbol _ rfl)
        (Step.legible_each h.2)
    cases absolute with
    | true => exact .plain rfl hsteps
    | false => exact hsteps
  | .scoped s, h => by
    simp only [Selector.isWellFormed] at h
    exact .plain rfl <| .plain rfl <| .before rfl rfl (Selector.legible h) .nil

theorem Selector.legible_each : ∀ {ss : List Selector},
    Selector.allWellFormed ss = true → ∀ P ∈ Selector.eachPieces ss, Legible P
  | [], _ => by simp [Selector.eachPieces]
  | s :: ss, h => by
    simp only [Selector.allWellFormed, Bool.and_eq_true] at h
    exact List.forall_mem_cons.2 ⟨Selector.legible h.1, Selector.legible_each h.2⟩

theorem Step.legible : ∀ {s : Step}, s.isWellFormed = true → Legible s.pieces
  | .parent, _ => .plain rfl .nil
  | .current, _ => .dot
  | .named isAttribute x p, h => by
    simp only [Step.isWellFormed, Bool.and_eq_true] at h
    have hname := QName.legible h.1 (Predicate.legible h.2) p.delimited_pieces
    cases isAttribute with
    | true => exact .plain rfl hname
    | false => exact hname

theorem Step.legible_each : ∀ {ss : List Step},
    Step.allWellFormed ss = true → ∀ P ∈ Step.eachPieces ss, Legible P
  | [], _ => by simp [Step.eachPieces]
  | s :: ss, h => by
    simp only [Step.allWellFormed, Bool.and_eq_true] at h
    exact List.forall_mem_cons.2 ⟨Step.legible h.1, Step.legible_each h.2⟩

theorem Predicate.legible : ∀ {p : Predicate}, p.isWellFormed = true → Legible p.pieces
  | .absent, _ => .nil
  | .index i, _ => by simpa [Predicate.pieces] using Index.legible i .nil
  | .filter f, h => by
    simp only [Predicate.isWellFormed] at h
    exact .plain rfl <| .before rfl rfl (Filter.legible h) .nil
  | .filterThenIndex f i, h => by
    simp only [Predicate.isWellFormed] at h
    have hindex : Legible (Index.pieces i) := by simpa using Index.legible i .nil
    exact .plain rfl <| .before rfl rfl (Filter.legible h) hindex

theorem Filter.legible : ∀ {f : Filter}, f.isWellFormed = true → Legible f.pieces
  | .empty, _ => .nil
  | .call c, h => Call.legible h
  | .selector s, h => Selector.legible h
  | .operator e, h => by
    simp only [Filter.isWellFormed, Bool.and_eq_true] at h
    by_cases hnumber : ∃ x, e = .constant (.number x)
    · obtain ⟨x, rfl⟩ := hnumber
      simp only [Filter.pieces]
      split
      · rename_i hwhole
        have hfinite : x.isFinite = true := by simp_all [Binary64.isWhole]
        exact .spelled hfinite (Binary64.wholeText_spells hwhole)
      · exact .number x
    · rw [Filter.pieces_operator (by simpa using hnumber)]
      exact Expr.legible h.2

end

/-- The tokens of a printed expression are those of its pieces. -/
theorem Expr.tokens_print {e : Expr} (h : e.isWellFormed = true) :
    ∃ ts : List Token, ts.map Token.word = wordsOf e.pieces ∧
      Token.scan e.print = .ok (ts ++ [.eof e.print.utf8ByteSize]) := by
  have hgives := (Expr.legible h).gives [] (by simp)
  rw [List.append_nil, ← Piece.toList_render] at hgives
  exact hgives.tokens

end MapExpr
