import MapExpr.Proofs.Expr.Same
import MapExpr.Proofs.Number.ReadBack
import MapExpr.Proofs.Number.Whole
import MapExpr.Proofs.Token.Spelled

/-!
# Words that are alike

A text and its canonical text may differ in the spelling of a number and in the quotes of a literal,
and in nothing else but blanks.

* `Word.Alike`: the same word up to such a difference;
* `Word.IsSpelled`: what is known of the text of a word by its kind, which holds of every word that
  is scanned;
* `Index.equals_of_ofText?`: the number that an index is read as.
-/

namespace MapExpr

/-! ## Equal numbers -/

namespace Binary64

variable {x y z : Binary64}

theorem equals_symm (h : x.equals y = true) : y.equals x = true := by
  simp only [equals, Bool.and_eq_true, Bool.or_eq_true, beq_iff_eq] at h ⊢
  obtain ⟨⟨hx, hy⟩, hrank, hsign⟩ := h
  exact ⟨⟨hy, hx⟩, hrank.symm, hsign.imp Eq.symm hrank.symm.trans⟩

theorem equals_trans (h : x.equals y = true) (h' : y.equals z = true) : x.equals z = true := by
  simp only [equals, Bool.and_eq_true, Bool.or_eq_true, beq_iff_eq] at h h' ⊢
  obtain ⟨⟨hx, -⟩, hrank, hsign⟩ := h
  obtain ⟨⟨-, hz⟩, hrank', hsign'⟩ := h'
  refine ⟨⟨hx, hz⟩, hrank.trans hrank', ?_⟩
  rcases hsign with hsign | hsign
  · exact hsign'.imp hsign.trans hrank.trans
  · exact .inr hsign

/-- Decimals without places are equal numbers to their integers. -/
theorem equals_ofInt {d : Decimal} (hplaces : d.places = 0)
    (hfinite : (ofInt d.numerator).isFinite = true) :
    (ofDecimal d).equals (ofInt d.numerator) = true := by
  obtain ⟨negative, n, places⟩ := d
  obtain rfl : places = 0 := hplaces
  have habs : (Decimal.numerator ⟨negative, n, 0⟩).natAbs = n := by
    cases negative <;> simp [Decimal.numerator]
  have hrank : (ofDecimal ⟨negative, n, 0⟩).rank =
      (ofInt (Decimal.numerator ⟨negative, n, 0⟩)).rank := by
    simp only [ofDecimal, ofInt, ofRatio, habs, Nat.pow_zero]
  have hfinite' : (ofDecimal ⟨negative, n, 0⟩).isFinite = true := by
    simpa only [isFinite, hrank] using hfinite
  simp only [equals, isNaN_eq_false hfinite, isNaN_eq_false hfinite', hrank, Bool.not_false,
    Bool.and_self, beq_self_eq_true, Bool.true_and, Bool.or_eq_true, beq_iff_eq]
  cases negative with
  | false => exact .inl (by simp [ofDecimal, ofInt, ofRatio, Decimal.numerator])
  | true =>
    rcases Nat.eq_zero_or_pos n with rfl | hpos
    · -- minus zero
      exact .inr (by simp [ofInt, ofRatio, Decimal.numerator, rankOfRatio, roundHalfEven])
    · refine .inl ?_
      have hneg : -(n : Int) < 0 := by omega
      simp [ofDecimal, ofInt, ofRatio, Decimal.numerator, hpos]

end Binary64

/-- An index is read as a number that is equal to it. -/
theorem Index.equals_of_ofText? {x : String} {i : Index} {d : Decimal}
    (hi : Decimal.Integer.ofText? x = some i) (hd : Decimal.ofText? x = some d) :
    (Binary64.ofDecimal d).equals (.ofInt i.toInt) = true := by
  have hpoint := Decimal.Integer.contains_point hi
  have hplaces : d.places = 0 := by rw [(Decimal.eq_of_whole hpoint hd).1]
  rw [Decimal.Integer.ofText?_of_whole hpoint hd] at hi
  simp only [Option.ite_none_right_eq_some, Option.some.injEq] at hi
  obtain ⟨⟨hlow, hhigh⟩, rfl⟩ := hi
  have hvalue : (Int64.ofInt d.numerator).toInt = d.numerator :=
    Int64.toInt_ofInt_of_le hlow hhigh
  have hfinite := Binary64.isFinite_ofInt (.ofInt d.numerator)
  rw [hvalue] at hfinite ⊢
  exact Binary64.equals_ofInt hplaces hfinite

/-! ## Alike words -/

namespace Word

/-- The literal with a quote on either side of its contents. -/
def literal (quote : Char) (contents : String) : Word :=
  ⟨.literal, .ofList (quote :: contents.toList ++ [quote])⟩

/-- The two quotes of literals. -/
def IsQuote (c : Char) : Prop :=
  c = '\x27' ∨ c = '"'

/-- The same word, or numerals that are read as equal numbers, or literals of the same contents in
any of the quotes. -/
inductive Alike : Word → Word → Prop
  | same (w : Word) : Alike w w
  | number {x y : String} {d e : Decimal} : Decimal.ofText? x = some d →
      Decimal.ofText? y = some e →
      (Binary64.ofDecimal d).equals (.ofDecimal e) = true → Alike ⟨.number, x⟩ ⟨.number, y⟩
  | literal {q r : Char} {contents : String} : IsQuote q → IsQuote r →
      Alike (literal q contents) (literal r contents)

/-- A number is a numeral, a literal has its quotes, and a word with only one spelling has it. -/
def IsSpelled (w : Word) : Prop :=
  match w.kind with
  | .number => (Decimal.ofText? w.text).isSome = true
  | .literal => ∃ q contents, IsQuote q ∧ w = literal q contents
  | .identifier | .eof => True
  | k => w = symbol k

/-- A numeral may be replaced by another one of the same number. -/
theorem Alike.numeral {w : Word} {x y : String} {d e : Decimal} (h : Alike w ⟨.number, x⟩)
    (hx : Decimal.ofText? x = some d) (hy : Decimal.ofText? y = some e)
    (heq : (Binary64.ofDecimal d).equals (.ofDecimal e) = true) : Alike w ⟨.number, y⟩ := by
  cases h with
  | same => exact .number hx hy heq
  | number hw hx' hequals =>
    obtain rfl := Option.some.inj (hx.symm.trans hx')
    exact .number hw hy (Binary64.equals_trans hequals heq)

theorem isSpelled_of_spelling? {k : Kind} {text : String} (h : k.spelling? = some text) :
    IsSpelled ⟨k, text⟩ := by
  have hsymbol : (⟨k, text⟩ : Word) = symbol k := by simp [symbol, Piece.symbol, Piece.text, h]
  cases k <;> first | exact hsymbol | cases h

end Word

namespace Token

theorem IsLiteral.isSpelled {s : List Char} (h : IsLiteral s) :
    Word.IsSpelled ⟨.literal, .ofList s⟩ := by
  cases h with
  | @quoted quote contents hquote _ =>
    exact ⟨quote, .ofList contents, hquote, by simp [Word.literal]⟩

theorem isSpelled_lexeme {s : List Char} {l : Lexeme} (h : lexeme? s = some l) :
    Word.IsSpelled ⟨l.kind, .ofList l.front⟩ := by
  simp only [lexeme?, Option.orElse_eq_orElse, Option.orElse_eq_or, Option.or_eq_some_iff,
    Option.map_eq_some_iff] at h
  rcases h with ⟨c, hc, rfl⟩ | ⟨-, ⟨c, hc, rfl⟩ | ⟨-, ⟨c, hc, rfl⟩ | ⟨-, h⟩⟩⟩
  · exact isSome_ofText? hc
  · exact (isLiteral_of_literal? hc).isSpelled
  · simp only [Kind.ofName]
    cases hk : Kind.keyword? (.ofList c.front) with
    | none => trivial
    | some k => exact Word.isSpelled_of_spelling? (Kind.spelling?_of_keyword? hk)
  · obtain ⟨k, -, h⟩ := List.exists_of_findSome?_eq_some h
    obtain ⟨c, hc, rfl⟩ := Option.map_eq_some_iff.1 h
    exact Word.isSpelled_of_spelling? (spelling?_of_mark? hc)

end Token

end MapExpr
