import MapExpr.Proofs.Expr.Same
import MapExpr.Proofs.Grammar.Language
import MapExpr.Proofs.Grammar.Trees
import MapExpr.Proofs.Print.Derivation

/-!
# Printing and parsing

What is printed is parsed again as the same expression, if its numbers are finite and the limit has
room for its nesting. Both conditions are needed, and what is parsed need not satisfy them: a number
without a point before a second bracket takes up no nesting, but its canonical text does, and
decimals above all finite numbers are read as infinity, which is printed as a name.

* `Expr.parse_print`: well-formed expressions;
* `reparse_iff_need_le`: what was parsed, again with the same limit;
* `same_reparse_iff_finite`: what was parsed, whatever is read again.
-/

namespace MapExpr

open Grammar (Derives)

/-! ## Well-formed expressions -/

/-- The text of a well-formed expression with finite numbers is parsed as this expression, which is
the same as itself, under the limits from its need on, and exceeds every lower one. -/
theorem Expr.parse_print {e : Expr} (h : e.isWellFormed = true)
    (hfinite : ∀ x ∈ e.numbers, x.isFinite = true) (d : Nat) :
    e.same e = true ∧
      (e.need ≤ d → parse ⟨d⟩ e.print = .ok ⟨e, ⟨0, e.print.utf8ByteSize⟩⟩) ∧
      (d < e.need → ∃ o, parse ⟨d⟩ e.print = .error (.depthExceeded o d)) := by
  obtain ⟨ts, hscan, hderives⟩ := Expr.derives_print h hfinite
  obtain ⟨haccept, hrefuse⟩ := parse_of_derives hscan hderives ⟨d⟩
  refine ⟨Expr.same_self hfinite, fun hd => haccept ?_, fun hd => hrefuse ?_⟩
  · show e.nesting < d
    simp only [Expr.need] at hd
    omega
  · show d ≤ e.nesting
    simp only [Expr.need] at hd
    omega

/-- A call with a filter in its first argument needs a limit of six. -/
theorem Expr.parse_print_call :
    parse ⟨6⟩ "f(a[.], 0)" = .ok ⟨.call (.mk false "f" [.selector (.steps false
      [.named false (.plain "a") (.filter (.selector (.steps false [.current])))]),
      .constant (.number ⟨false, 0, by decide⟩)]), ⟨0, 10⟩⟩ :=
  (Expr.parse_print (e := .call (.mk false "f" [.selector (.steps false
      [.named false (.plain "a") (.filter (.selector (.steps false [.current])))]),
      .constant (.number ⟨false, 0, by decide⟩)]))
    (by decide) (by decide) 6).2.1 (by decide)

/-! ## What was parsed -/

variable {text : String} {settings : Settings} {d : Nat} {A : Parsed}

/-- What is parsed is well formed. -/
theorem isWellFormed_of_parse (h : parse settings text = .ok A) : A.root.isWellFormed = true := by
  obtain ⟨ts, n, -, hgenuine, hderives, -⟩ := derives_of_parse h
  exact hderives.isWellFormed hgenuine

/-- What was parsed is parsed again under the same limit exactly if the limit has room for its tree.
Otherwise the limit is the fault, and a number stands before a second bracket in the text. -/
theorem reparse_iff_need_le (h : parse ⟨d⟩ text = .ok A)
    (hfinite : ∀ x ∈ A.root.numbers, x.isFinite = true) :
    ((∃ B, parse ⟨d⟩ A.root.print = .ok B ∧ A.root.same B.root = true) ↔ A.root.need ≤ d) ∧
      (d < A.root.need →
        (∃ o, parse ⟨d⟩ A.root.print = .error (.depthExceeded o d)) ∧
          ∃ ts, Token.scan text = .ok ts ∧
            Word.HasDoubleIndex (ts.dropLast.map Token.word)) := by
  obtain ⟨us, hprinted, hagain⟩ := Expr.derives_print (isWellFormed_of_parse h) hfinite
  obtain ⟨haccept, hrefuse⟩ := parse_of_derives hprinted hagain ⟨d⟩
  have hneed : A.root.need ≤ d ↔ A.root.nesting < d := by
    simp only [Expr.need]
    omega
  refine ⟨⟨?_, fun hd => ⟨_, haccept (hneed.1 hd), Expr.same_self hfinite⟩⟩, fun hd => ?_⟩
  · rintro ⟨B, hB, -⟩
    by_contra hd
    obtain ⟨o, herror⟩ := hrefuse (show d ≤ A.root.nesting by omega)
    rw [hB] at herror
    cases herror
  · refine ⟨hrefuse (show d ≤ A.root.nesting by omega), ?_⟩
    obtain ⟨ts, n, hscan, -, hderives, hn⟩ := derives_of_parse h
    have hn : n < d := hn
    refine ⟨_, hscan, ?_⟩
    -- the text nested less deeply than its tree
    rcases hderives.nesting_cases with heq | ⟨-, hdouble⟩
    · have heq : n = A.root.nesting := heq
      omega
    · exact hdouble

theorem parse_twoIndexes (hd : 0 < d) : parse ⟨d⟩ "a[1][2]" = .ok ⟨twoIndexes, ⟨0, 7⟩⟩ :=
  (parse_of_derives scan_twoIndexes derives_twoIndexes ⟨d⟩).1 hd

theorem isFinite_twoIndexes : ∀ x ∈ twoIndexes.numbers, x.isFinite = true := by
  have hnumbers : twoIndexes.numbers = [.ofInt 1] := by
    simp [twoIndexes, Expr.numbers, Selector.numbers, Step.allNumbers, Step.numbers,
      Predicate.numbers, Filter.numbers, Constant.numbers]
  rw [hnumbers, List.forall_mem_singleton]
  exact Binary64.isFinite_ofInt 1

/-- With room for the filter of `a[1][2]`, its text is parsed again. -/
theorem reparse_twoIndexes :
    ∃ B, parse ⟨5⟩ twoIndexes.print = .ok B ∧ twoIndexes.same B.root = true :=
  (reparse_iff_need_le (parse_twoIndexes (by decide)) isFinite_twoIndexes).1.2 (by decide)

/-- Without that room, `a[1][2]` is parsed and its own canonical text is not. -/
theorem not_reparse_twoIndexes :
    parse ⟨1⟩ "a[1][2]" = .ok ⟨twoIndexes, ⟨0, 7⟩⟩ ∧
      (∀ x ∈ twoIndexes.numbers, x.isFinite = true) ∧
      ∃ o, parse ⟨1⟩ twoIndexes.print = .error (.depthExceeded o 1) := by
  have hparse := parse_twoIndexes (d := 1) (by decide)
  obtain ⟨us, hprinted, hagain⟩ :=
    Expr.derives_print (isWellFormed_of_parse hparse) isFinite_twoIndexes
  exact ⟨hparse, isFinite_twoIndexes, (parse_of_derives hprinted hagain ⟨1⟩).2 (by decide)⟩

/-! ## What is read again -/

/-- What is read again, under any limit, is the same as what was parsed exactly if the numbers of
the latter are finite. -/
theorem same_reparse_iff_finite {d' : Nat} {B : Parsed} (h : parse ⟨d⟩ text = .ok A)
    (hagain : parse ⟨d'⟩ A.root.print = .ok B) :
    A.root.same B.root = true ↔ ∀ x ∈ A.root.numbers, x.isFinite = true := by
  have hwellFormed := isWellFormed_of_parse h
  obtain ⟨us, n, hscan, -, hderives, -⟩ := derives_of_parse hagain
  constructor
  · -- all numbers of the canonical text are finite, and those of the two expressions equal
    intro hsame
    obtain ⟨ts, hwords, hprinted⟩ := Expr.tokens_print hwellFormed
    obtain rfl := Except.ok.inj (hprinted.symm.trans hscan)
    rw [List.dropLast_concat, hwords] at hderives
    exact Binary64.isFinite_of_ranks_eq (Expr.ranks_of_same hsame)
      (hderives.isFinite_numbers (Expr.legible hwellFormed).finite)
  · intro hfinite
    obtain ⟨ts, hprinted, hprint⟩ := Expr.derives_print hwellFormed hfinite
    obtain rfl := Except.ok.inj (hprinted.symm.trans hscan)
    rw [← (hprint.unique hderives).1]
    exact Expr.same_self hfinite

/-- The step to the children of one name. -/
def childNamed (x : String) : Expr :=
  .selector (.steps false [.named false (.plain x) .absent])

/-- A name on its own is a step to the children of that name. -/
theorem parse_name {x : String} (hx : Name.isFree x = true) (hd : 0 < d) :
    parse ⟨d⟩ x = .ok ⟨childNamed x, ⟨0, x.utf8ByteSize⟩⟩ := by
  have hprint : (childNamed x).print = x := by
    simp [childNamed, Expr.print, Expr.pieces, Selector.pieces, Step.eachPieces, Step.pieces,
      QName.plain, QName.pieces, LocalName.piece, Predicate.pieces, Piece.render, Piece.text]
  have hwellFormed : (childNamed x).isWellFormed = true := by
    simp [childNamed, Expr.isWellFormed, Selector.isWellFormed, Step.allWellFormed,
      Step.isWellFormed, QName.plain, QName.isWellFormed, LocalName.isWellFormed, hx,
      Predicate.isWellFormed]
  have hfinite : ∀ y ∈ (childNamed x).numbers, y.isFinite = true := by
    simp [childNamed, Expr.numbers, Selector.numbers, Step.allNumbers, Step.numbers,
      Predicate.numbers]
  obtain ⟨ts, hscan, hderives⟩ := Expr.derives_print hwellFormed hfinite
  rw [hprint] at hscan
  exact (parse_of_derives hscan hderives ⟨d⟩).1 hd

/-- A numeral on its own is a number. -/
theorem parse_numeral {x : String} {n : Decimal} (hread : Decimal.ofText? x = some n)
    (hnumber : Token.number? x.toList = some ⟨x.toList, []⟩) (hd : 0 < d) :
    parse ⟨d⟩ x = .ok ⟨.constant (.number (.ofDecimal n)), ⟨0, x.utf8ByteSize⟩⟩ := by
  obtain ⟨ts, hwords, hscan⟩ :=
    (Token.Stream.Gives.lexeme (Token.lexeme?_of_number? hnumber)).tokens
  have hderives : Derives .expression ((ts ++ [Token.eof x.utf8ByteSize]).dropLast.map Token.word)
      (.constant (.number (.ofDecimal n))) 0 := by
    rw [List.dropLast_concat, hwords, String.ofList_toList]
    exact .of_numeral hread
  exact (parse_of_derives hscan hderives ⟨d⟩).1 hd

/-- `a` is read again as itself. -/
theorem same_reparse_name :
    parse ⟨1⟩ "a" = .ok ⟨childNamed "a", ⟨0, 1⟩⟩ ∧
      parse ⟨1⟩ (childNamed "a").print = .ok ⟨childNamed "a", ⟨0, 1⟩⟩ ∧
      (childNamed "a").same (childNamed "a") = true := by
  have hparse : parse ⟨1⟩ "a" = .ok ⟨childNamed "a", ⟨0, 1⟩⟩ := parse_name (by decide) (by decide)
  have hagain : parse ⟨1⟩ (childNamed "a").print = .ok ⟨childNamed "a", ⟨0, 1⟩⟩ := hparse
  exact ⟨hparse, hagain, (same_reparse_iff_finite hparse hagain).2 fun y hy => nomatch hy⟩

/-- The digits of `10 ^ 309`, which is above all finite numbers. -/
def overflowing : String :=
  .ofList ('1' :: List.replicate 309 '0')

/-- The number that they are read as. -/
def overflow : Binary64 :=
  .ofDecimal ⟨false, 10 ^ 309, 0⟩

/-- Digits that are too many for a finite number are read as infinity, which is printed as a name
and read again as a selector. -/
theorem not_same_reparse_overflow :
    parse ⟨1⟩ overflowing = .ok ⟨.constant (.number overflow), ⟨0, 310⟩⟩ ∧
      parse ⟨1⟩ (Expr.constant (.number overflow)).print = .ok ⟨childNamed "inf", ⟨0, 3⟩⟩ ∧
      (Expr.constant (.number overflow)).same (childNamed "inf") = false := by
  have hlist : overflowing.toList = '1' :: List.replicate 309 '0' := String.toList_ofList
  have hread : Decimal.ofText? overflowing = some ⟨false, 10 ^ 309, 0⟩ := by
    rw [Decimal.ofText?, hlist]
    decide +kernel
  have hnumber : Token.number? overflowing.toList = some ⟨overflowing.toList, []⟩ := by
    rw [hlist]
    decide +kernel
  have hsize : overflowing.utf8ByteSize = 310 := by
    rw [← Token.byteCount_toList, hlist]
    decide +kernel
  have hrank : overflow.rank = Binary64.infinityRank := by decide +kernel
  have hprint : (Expr.constant (.number overflow)).print = "inf" := by
    have htext : overflow.toText = "inf" := Binary64.toText_of_rank_eq hrank
    simp [Expr.print, Expr.pieces, Constant.piece, Piece.render, Piece.text, htext]
  rw [hprint, ← hsize]
  refine ⟨parse_numeral hread hnumber (by decide), parse_name (by decide) (by decide), ?_⟩
  simp [childNamed, Expr.same]

end MapExpr
