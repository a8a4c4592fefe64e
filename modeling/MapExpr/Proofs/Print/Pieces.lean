import MapExpr.Proofs.Number.ReadBack
import MapExpr.Proofs.Token.Spelled

/-!
# Legible pieces

Rows of pieces that run together nowhere: their text is scanned as one word for every token, and no
word more. A number that is not finite is the exception, for it is written as a name, perhaps with a
minus sign in front.

* `Piece.words`: what a piece is read as;
* `Legible`: rows of pieces that are read one by one;
* `Legible.append`, `Legible.cons`, `Legible.before`, `Legible.intercalate`: ways to build them.
-/

namespace MapExpr

open Token (Delimited)
open Token.Stream (Gives)

namespace Piece

/-- What a piece is read as. -/
def words : Piece → List Word
  | blank => []
  | token .number text =>
    if (Decimal.ofText? text).isSome then [⟨.number, text⟩]
    else
      let (negative, name) := Decimal.sign text.toList
      Word.optional negative (.symbol .minus) ++ [⟨.identifier, .ofList name⟩]
  | token k text => [⟨k, text⟩]

/-- What a row of pieces is read as. -/
def wordsOf (P : List Piece) : List Word :=
  P.flatMap words

/-- The characters of a row of pieces. -/
def charsOf (P : List Piece) : List Char :=
  P.flatMap fun p => p.text.toList

variable (p : Piece) (P Q : List Piece)

@[simp] theorem wordsOf_nil : wordsOf [] = [] := rfl

@[simp] theorem wordsOf_cons : wordsOf (p :: P) = p.words ++ wordsOf P := rfl

@[simp] theorem wordsOf_append : wordsOf (P ++ Q) = wordsOf P ++ wordsOf Q :=
  List.flatMap_append

@[simp] theorem charsOf_nil : charsOf [] = [] := rfl

@[simp] theorem charsOf_cons : charsOf (p :: P) = p.text.toList ++ charsOf P := rfl

@[simp] theorem charsOf_append : charsOf (P ++ Q) = charsOf P ++ charsOf Q :=
  List.flatMap_append

theorem delimited_symbol {k : Kind} (hk : k.isDelimiter = true) :
    Delimited (charsOf (symbol k :: P)) := by
  obtain ⟨c, hhead, hc⟩ := (Option.any_eq_true _ _).1 hk
  obtain ⟨s, hcons⟩ := List.head?_eq_some_iff.1 hhead
  simpa [hcons] using hc

theorem delimited_operator (k : Kind) : Delimited (charsOf (operator k ++ P)) :=
  (Token.delimited_cons ' ' _).2 (by decide)

theorem toList_render : (render P).toList = charsOf P := by
  simp only [render, String.toList_join, List.flatMap_map, charsOf]

@[simp] theorem words_blank : blank.words = [] := rfl

theorem words_token {k : Kind} (hk : k ≠ .number) (text : String) :
    (token k text).words = [⟨k, text⟩] := by
  cases k <;> first | rfl | exact absurd rfl hk

theorem words_number {text : String} {d : Decimal} (h : Decimal.ofText? text = some d) :
    (token .number text).words = [⟨.number, text⟩] := by
  simp [words, h]

end Piece

open Piece (wordsOf charsOf)

/-- The pieces of a row are read one by one, if no name or numeral goes on after them. -/
structure Legible (P : List Piece) : Prop where
  gives : ∀ rest, Delimited rest → Gives (charsOf P ++ rest) (wordsOf P) rest
  finite : ∀ w ∈ wordsOf P, w.IsFinite

namespace Legible

variable {P Q : List Piece} {k : Kind}

theorem nil : Legible [] :=
  ⟨fun rest _ => .refl rest, by simp⟩

theorem append (hP : Legible P) (hQ : Legible Q) (h : Delimited (charsOf Q)) :
    Legible (P ++ Q) where
  gives rest hrest := by
    have hfront := hP.gives (charsOf Q ++ rest) (h.append hrest)
    simpa only [Piece.charsOf_append, Piece.wordsOf_append, List.append_assoc] using
      hfront.trans (hQ.gives rest hrest)
  finite := by
    simp only [Piece.wordsOf_append, List.mem_append]
    rintro w (hw | hw)
    · exact hP.finite w hw
    · exact hQ.finite w hw

/-- A token in front, of which what follows is no part. -/
theorem cons {text : String} (hk : k ≠ .number) (hQ : Legible Q)
    (h : ∀ rest, Delimited rest → Token.lexeme? (text.toList ++ (charsOf Q ++ rest)) =
      some ⟨⟨text.toList, charsOf Q ++ rest⟩, k⟩) :
    Legible (.token k text :: Q) where
  gives rest hrest := by
    have hfront := Gives.lexeme (h rest hrest)
    rw [String.ofList_toList] at hfront
    simpa only [Piece.charsOf_cons, Piece.wordsOf_cons, Piece.text, List.append_assoc,
      Piece.words_token hk] using hfront.trans (hQ.gives rest hrest)
  finite := by
    simp only [Piece.wordsOf_cons, Piece.words_token hk, List.cons_append, List.nil_append,
      List.forall_mem_cons]
    exact ⟨fun _ hnumber => absurd hnumber hk, hQ.finite⟩

theorem blank (hQ : Legible Q) : Legible (.blank :: Q) where
  gives rest hrest := (Gives.blank rfl _).trans (hQ.gives rest hrest)
  finite := hQ.finite

/-! ## Marks -/

theorem plain (hk : k.isPlain = true) (hQ : Legible Q) : Legible (.symbol k :: Q) :=
  cons (by rintro rfl; simp [Kind.isPlain] at hk) hQ fun rest _ => Token.lexeme?_plain hk _

/-- A mark that ends what stands before it. -/
theorem before (hk : k.isPlain = true) (hdelimiter : k.isDelimiter = true) (hP : Legible P)
    (hQ : Legible Q) : Legible (P ++ .symbol k :: Q) :=
  hP.append (plain hk hQ) (Piece.delimited_symbol _ hdelimiter)

theorem dot : Legible [.symbol .dot] :=
  cons (by decide) nil fun _ hrest => Token.lexeme?_dot hrest

theorem colon (hQ : Legible Q) (h : ∃ c s, charsOf Q = c :: s ∧ c ≠ ':') :
    Legible (.symbol .colon :: Q) :=
  cons (by decide) hQ fun rest _ => Token.lexeme?_colon <| by
    obtain ⟨c, s, hc, hne⟩ := h
    simpa [hc] using hne

theorem infixes (hk : k.isInfix = true) (hQ : Legible Q) : Legible (Piece.operator k ++ Q) :=
  blank <| cons (by rintro rfl; simp [Kind.isInfix, Parse.Operator.ofKind?] at hk) hQ.blank
    fun _ _ => Token.lexeme?_infix hk _

theorem system : Legible [.symbol .systemWord] :=
  cons (by decide) nil fun _ hrest => Token.lexeme?_system hrest

/-! ## Names, literals and numbers -/

theorem name {x : String} (hx : Name.isFree x = true) (hQ : Legible Q)
    (h : Delimited (charsOf Q)) : Legible (.token .identifier x :: Q) :=
  cons (by decide) hQ fun _ hrest => Token.lexeme?_name hx (h.append hrest)

theorem literal {contents : String} (h : Constant.isWellFormed (.literal contents) = true) :
    Legible [.token .literal (Constant.quoted contents)] :=
  cons (by decide) nil fun _ _ => Token.lexeme?_quoted h _

/-- A numeral of a finite number. -/
theorem numeral {negative : Bool} {places n : Nat}
    (h : (Binary64.ofDecimal ⟨negative, n, places⟩).isFinite = true) :
    Legible [.token .number (.ofList (Decimal.numeral negative places n))] := by
  have hread := Decimal.ofText?_numeral negative places n
  have hwords : wordsOf [.token .number (.ofList (Decimal.numeral negative places n))] =
      [⟨.number, .ofList (Decimal.numeral negative places n)⟩] := by
    simp [Piece.words_number hread]
  refine ⟨fun rest hrest => ?_, ?_⟩
  · rw [hwords]
    simpa [Piece.text] using Gives.lexeme (Token.lexeme?_numeral hrest negative places n)
  · rw [hwords, List.forall_mem_singleton]
    intro d _ hd
    obtain rfl := Option.some.inj (hread.symm.trans hd)
    exact h

theorem spelled {x : Binary64} {places : Nat} {text : String} (hx : x.isFinite = true)
    (h : x.Spells places text) : Legible [.token .number text] := by
  obtain ⟨n, rfl, hread⟩ := h
  exact numeral (by rwa [hread])

/-- A row that is read as words none of which is a number. -/
theorem unnumbered {text : String} (ws : List Word) (hwords : (Piece.token k text).words = ws)
    (hkinds : ∀ w ∈ ws, w.kind ≠ .number)
    (h : ∀ rest, Delimited rest → Gives (text.toList ++ rest) ws rest) :
    Legible [.token k text] where
  gives rest hrest := by simpa [hwords, Piece.text] using h rest hrest
  finite := by
    simp only [Piece.wordsOf_cons, Piece.wordsOf_nil, List.append_nil, hwords]
    exact fun w hw _ hnumber => absurd hnumber (hkinds w hw)

/-- Infinity and what is not a number are written as names. -/
theorem unbounded {x : Binary64} (hx : x.isFinite = false) :
    Legible [.token .number x.toText] := by
  have hname : ∀ {x : String}, Name.isFree x = true → ∀ rest, Delimited rest →
      Gives (x.toList ++ rest) [⟨.identifier, x⟩] rest := by
    intro x hx rest hrest
    simpa using Gives.lexeme (Token.lexeme?_name hx hrest)
  have hminus : ∀ rest, Gives ("-inf".toList ++ rest) [.symbol .minus] ("inf".toList ++ rest) :=
    fun rest => .lexeme rfl
  rcases Binary64.toText_of_isFinite_eq_false hx with h | h | h <;> rw [h]
  · exact unnumbered [⟨.identifier, "NaN"⟩] (by decide) (by decide) (hname (by decide))
  · exact unnumbered [⟨.identifier, "inf"⟩] (by decide) (by decide) (hname (by decide))
  · exact unnumbered [.symbol .minus, ⟨.identifier, "inf"⟩] (by decide) (by decide)
      fun rest hrest => (hminus rest).trans (hname (by decide) rest hrest)

theorem number (x : Binary64) : Legible [.token .number x.toText] := by
  cases hx : x.isFinite with
  | false => exact unbounded hx
  | true =>
    obtain ⟨places, hspells, -⟩ := Binary64.toText_spells hx
    exact spelled hx hspells

theorem index (i : Index) : Legible [.token .number (toString i.toInt)] := by
  rw [Index.toString_eq]
  exact numeral (Binary64.isFinite_ofInt i)

/-! ## Rows of rows -/

theorem intercalate {sep : List Piece} (hsep : ∀ {Q}, Legible Q → Legible (sep ++ Q))
    (hdelimited : ∀ Q, Delimited (charsOf (sep ++ Q))) :
    ∀ {Ps : List (List Piece)}, (∀ P ∈ Ps, Legible P) → Legible (sep.intercalate Ps)
  | [], _ => nil
  | [P], h => by simpa using h P (by simp)
  | P :: P' :: Ps, h => by
    have hrest := intercalate hsep hdelimited fun Q hQ => h Q (List.mem_cons_of_mem P hQ)
    rw [List.intercalate_cons_cons, List.append_assoc]
    exact (h P List.mem_cons_self).append (hsep hrest) (hdelimited _)

end Legible

end MapExpr
