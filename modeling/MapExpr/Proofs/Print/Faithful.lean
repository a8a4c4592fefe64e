import Mathlib.Data.List.Forall2
import MapExpr.Proofs.Print.Alike
import MapExpr.Proofs.Print.Words
import MapExpr.Proofs.RoundTrip

/-!
# Texts and their canonical texts

The canonical text of what was parsed has the tokens of the text, one for one.

* `Word.IsPrintable`: a word as it is scanned, whose number is finite;
* `Category.words`: what the tree of a category is written as;
* `Derives.alike`: every text of a category is alike to what its tree is written as;
* `alike_tokens_of_parse`: the tokens of a text and of its canonical text.
-/

namespace MapExpr

open Piece (wordsOf)
open Word (optional row symbol Alike)

/-! ## Single words -/

namespace Word

/-- A word as it is scanned, whose number is finite. -/
def IsPrintable (w : Word) : Prop :=
  w.IsSpelled ∧ w.IsFinite

variable {k k' : Kind} {p q x y : String} {d : Decimal} {ws ws' us us' : List Word}

theorem alike_symbol (h : IsPrintable ⟨k, p⟩) (hk : k.spelling?.isSome = true) :
    Alike ⟨k, p⟩ (symbol k) := by
  have hsymbol : (⟨k, p⟩ : Word) = symbol k := by
    obtain ⟨hspelled, -⟩ := h
    cases k <;> first | exact hspelled | cases hk
  exact hsymbol ▸ .same _

/-- A numeral and the numeral that its number is written as. -/
theorem alike_spelled {n : Binary64} {places : Nat} (hd : Decimal.ofText? x = some d)
    (hequals : (Binary64.ofDecimal d).equals n = true) (hy : n.Spells places y) :
    Alike ⟨.number, x⟩ ⟨.number, y⟩ := by
  obtain ⟨e, he, rfl⟩ := hy.ofText?
  exact .number hd he hequals

theorem alike_quoted (h : IsPrintable ⟨.literal, x⟩) :
    Alike ⟨.literal, x⟩ ⟨.literal, Constant.quoted (Parse.unquoted x)⟩ := by
  obtain ⟨⟨q, contents, hq, hx⟩, -⟩ := h
  obtain rfl : x = .ofList (q :: contents.toList ++ [q]) := congrArg Word.text hx
  have hcontents : Parse.unquoted (.ofList (q :: contents.toList ++ [q])) = contents := by
    simp [Parse.unquoted]
  have hquoted : ∃ r, IsQuote r ∧
      (⟨.literal, Constant.quoted contents⟩ : Word) = Word.literal r contents := by
    have htext : ∀ {x : String} {r : Char}, x.toList = r :: contents.toList ++ [r] →
        (⟨.literal, x⟩ : Word) = Word.literal r contents := fun h =>
      congrArg (Word.mk .literal) (String.toList_inj.1 (by rw [h, String.toList_ofList]))
    unfold Constant.quoted
    split
    · exact ⟨'"', .inr rfl, htext (by simp)⟩
    · exact ⟨'\x27', .inl rfl, htext (by simp)⟩
  obtain ⟨r, hr, hliteral⟩ := hquoted
  rw [hcontents, hliteral]
  exact .literal hq hr

/-- A number in brackets and the index that it is. -/
theorem alike_index {i : Index} (h : IsPrintable ⟨.number, x⟩)
    (hi : Decimal.Integer.ofText? x = some i) :
    Alike ⟨.number, x⟩ ⟨.number, toString i.toInt⟩ := by
  obtain ⟨d, hd⟩ := Option.isSome_iff_exists.1 h.1
  have hread := Decimal.ofText?_numeral (i.toInt < 0) 0 i.toInt.natAbs
  rw [← Index.toString_eq] at hread
  have hindex := Index.equals_of_ofText? (Index.ofText?_toString i) hread
  exact .number hd hread
    (Binary64.equals_trans (Index.equals_of_ofText? hi hd) (Binary64.equals_symm hindex))

/-- An index in its brackets. -/
theorem alike_indexed {i : Index}
    (h : ∀ w ∈ [⟨.leftBracket, p⟩, ⟨.number, x⟩, ⟨.rightBracket, q⟩], IsPrintable w)
    (hi : Decimal.Integer.ofText? x = some i) :
    List.Forall₂ Alike [⟨.leftBracket, p⟩, ⟨.number, x⟩, ⟨.rightBracket, q⟩]
      (wordsOf i.pieces) := by
  obtain ⟨hopen, hnumber, hclose, -⟩ := by simpa only [List.forall_mem_cons] using h
  rw [Index.wordsOf_pieces]
  exact .cons (alike_symbol hopen rfl)
    (.cons (alike_index hnumber hi) (.cons (alike_symbol hclose rfl) .nil))

/-! ## Finite numbers -/

theorem isFinite_of_kind_ne (hk : k ≠ .number) : IsFinite ⟨k, x⟩ :=
  fun _ hnumber => absurd hnumber hk

theorem isFinite_number (hd : Decimal.ofText? x = some d)
    (hfinite : (Binary64.ofDecimal d).isFinite = true) : IsFinite ⟨.number, x⟩ := by
  intro d' _ hd'
  obtain rfl := Option.some.inj (hd.symm.trans hd')
  exact hfinite

theorem isFinite_index {i : Index} (hi : Decimal.Integer.ofText? x = some i) :
    IsFinite ⟨.number, x⟩ := by
  intro d _ hd
  have hrank := Binary64.rank_of_equals (Index.equals_of_ofText? hi hd)
  simpa only [Binary64.isFinite, hrank] using Binary64.isFinite_ofInt i

/-! ## Rows of words -/

theorem mem_optional {present : Bool} {w u : Word} :
    w ∈ optional present u ↔ present = true ∧ w = u := by
  cases present <;> simp

theorem alike_optional {present : Bool} (h : ∀ w ∈ optional present ⟨k, p⟩, IsPrintable w)
    (hk : k.spelling?.isSome = true) :
    List.Forall₂ Alike (optional present ⟨k, p⟩) (optional present (symbol k)) := by
  cases present with
  | false => exact .nil
  | true => exact .cons (alike_symbol (h _ (List.mem_singleton_self _)) hk) .nil

/-- Two rows with a mark between them. -/
theorem alike_infix (h : ∀ w ∈ ws ++ ⟨k, p⟩ :: us, IsPrintable w)
    (hk : k.spelling?.isSome = true)
    (hws : (∀ w ∈ ws, IsPrintable w) → List.Forall₂ Alike ws ws')
    (hus : (∀ w ∈ us, IsPrintable w) → List.Forall₂ Alike us us') :
    List.Forall₂ Alike (ws ++ ⟨k, p⟩ :: us) (ws' ++ symbol k :: us') := by
  simp only [List.forall_mem_append, List.forall_mem_cons] at h
  exact List.rel_append (hws h.1) (.cons (alike_symbol h.2.1 hk) (hus h.2.2))

/-- A row between two marks. -/
theorem alike_between (h : ∀ w ∈ ⟨k, p⟩ :: (ws ++ [⟨k', q⟩]), IsPrintable w)
    (hk : k.spelling?.isSome = true) (hk' : k'.spelling?.isSome = true)
    (hws : (∀ w ∈ ws, IsPrintable w) → List.Forall₂ Alike ws ws') :
    List.Forall₂ Alike (⟨k, p⟩ :: (ws ++ [⟨k', q⟩])) (symbol k :: (ws' ++ [symbol k'])) := by
  simp only [List.forall_mem_append, List.forall_mem_cons] at h
  exact .cons (alike_symbol h.1 hk)
    (List.rel_append (hws h.2.1) (.cons (alike_symbol h.2.2.1 hk') .nil))

variable {α : Type} {words : α → List Word} {as : List α} {a : α}

/-- A row of one member. -/
theorem alike_first (h : List.Forall₂ Alike ws (words a)) :
    List.Forall₂ Alike ws (row k ([a].map words)) := by
  rwa [List.map_singleton, row_singleton]

/-- A row with a further member at its end. -/
theorem alike_next (h : ∀ w ∈ ws ++ ⟨k, p⟩ :: us, IsPrintable w)
    (hk : k.spelling?.isSome = true) (hne : as ≠ [])
    (hws : (∀ w ∈ ws, IsPrintable w) → List.Forall₂ Alike ws (row k (as.map words)))
    (hus : (∀ w ∈ us, IsPrintable w) → List.Forall₂ Alike us (words a)) :
    List.Forall₂ Alike (ws ++ ⟨k, p⟩ :: us) (row k ((as ++ [a]).map words)) := by
  rw [List.map_append, List.map_singleton, row_concat (mt List.map_eq_nil_iff.1 hne)]
  exact alike_infix h hk hws hus

end Word

/-! ## Numbers and filters -/

theorem Expr.alike_number {x : String} {d : Decimal} (hd : Decimal.ofText? x = some d)
    (h : Word.IsFinite ⟨.number, x⟩) : List.Forall₂ Alike [⟨.number, x⟩]
      (wordsOf (Expr.constant (.number (.ofDecimal d))).pieces) := by
  have hfinite : (Binary64.ofDecimal d).isFinite = true := h d rfl hd
  obtain ⟨_, hspells, -⟩ := Binary64.toText_spells hfinite
  have hequals := Binary64.equals_self (Binary64.isNaN_eq_false hfinite)
  rw [Expr.pieces, Constant.piece, hspells.wordsOf_token]
  exact .cons (Word.alike_spelled hd hequals hspells) .nil

/-- A number that is all of a filter is written as a numeral of it. -/
theorem Filter.exists_wordsOf_number {x : Binary64} (hfinite : x.isFinite = true) :
    ∃ places text, x.Spells places text ∧
      wordsOf (Filter.pieces (.operator (.constant (.number x)))) = [⟨.number, text⟩] := by
  have hspells : ∃ places, x.Spells places (if x.isWhole then x.wholeText else x.toText) := by
    split
    · rename_i hwhole
      exact ⟨1, Binary64.wholeText_spells hwhole⟩
    · obtain ⟨places, hspells, -⟩ := Binary64.toText_spells hfinite
      exact ⟨places, hspells⟩
  obtain ⟨places, hspells⟩ := hspells
  exact ⟨places, _, hspells, by rw [Filter.pieces, hspells.wordsOf_token]⟩

/-- The first of two indexes is a filter that is a number. -/
theorem Filter.alike_index {x : String} {i : Index} (h : Word.IsPrintable ⟨.number, x⟩)
    (hi : Decimal.Integer.ofText? x = some i) : List.Forall₂ Alike [⟨.number, x⟩]
      (wordsOf (Filter.pieces (.operator (.constant (.number (.ofInt i.toInt)))))) := by
  obtain ⟨d, hd⟩ := Option.isSome_iff_exists.1 h.1
  obtain ⟨_, text, hspells, hwords⟩ := Filter.exists_wordsOf_number (Binary64.isFinite_ofInt i)
  rw [hwords]
  exact .cons (Word.alike_spelled hd (Index.equals_of_ofText? hi hd) hspells) .nil

/-- A filter is written as its expression, up to the spelling of a number. -/
theorem Filter.alike_ofExpr {e : Expr} {ws : List Word}
    (hfinite : ∀ x ∈ e.numbers, x.isFinite = true)
    (h : List.Forall₂ Alike ws (wordsOf e.pieces)) :
    List.Forall₂ Alike ws (wordsOf (Filter.ofExpr e).pieces) := by
  by_cases hnumber : ∃ x, e = .constant (.number x)
  · obtain ⟨x, rfl⟩ := hnumber
    have hx := hfinite x (List.mem_singleton_self x)
    obtain ⟨_, hspells, -⟩ := Binary64.toText_spells hx
    obtain ⟨_, text, hspells', hwords⟩ := Filter.exists_wordsOf_number hx
    obtain ⟨d, hd, hvalue⟩ := hspells.ofText?
    obtain ⟨d', hd', hvalue'⟩ := hspells'.ofText?
    have hequals := Binary64.equals_self (Binary64.isNaN_eq_false hx)
    rw [Expr.pieces, Constant.piece, hspells.wordsOf_token] at h
    obtain ⟨w, _, hw, hnil, rfl⟩ := List.forall₂_cons_right_iff.1 h
    have halike := hw.numeral hd hd' (by rwa [hvalue, hvalue'])
    exact hwords ▸ .cons halike hnil
  · have hne : ∀ x, e ≠ .constant (.number x) := by simpa using hnumber
    have hpieces : (Filter.ofExpr e).pieces = e.pieces := by
      cases e <;> first | rfl | exact Filter.pieces_operator hne
    rwa [hpieces]

/-! ## Derivations -/

namespace Grammar

/-- What the tree of a category is written as. -/
def Category.words : (c : Category) → c.Tree → List Word
  | .expression, e | .phrase _, e => wordsOf e.pieces
  | .disjuncts, es => row .orWord (es.map fun e => wordsOf e.pieces)
  | .conjuncts, es => row .andWord (es.map fun e => wordsOf e.pieces)
  | .arguments, es => row .comma (es.map fun e => wordsOf e.pieces)
  | .terms, (e, es) => wordsOf (Expr.additive e es).pieces
  | .factors, (e, es) => wordsOf (Expr.multiplicative e es).pieces
  | .selector, s => wordsOf s.pieces
  | .members, ss => row .pipe (ss.map fun s => wordsOf s.pieces)
  | .steps, ts => row .slash (ts.map fun t => wordsOf t.pieces)
  | .step, t => wordsOf t.pieces
  | .name, x => wordsOf x.pieces
  | .predicate, p => wordsOf p.pieces
  | .filter, f => wordsOf f.pieces

/-- A list of a category that grows at its end has members. -/
def Category.HasMembers : (c : Category) → c.Tree → Prop
  | .disjuncts, es | .conjuncts, es | .arguments, es => es ≠ []
  | .members, ss => ss ≠ []
  | .steps, ts => ts ≠ []
  | _, _ => True

variable {c : Category} {ws : List Word} {t : c.Tree} {n : Nat}

theorem Derives.hasMembers (h : Derives c ws t n) : c.HasMembers t := by
  induction h <;> simp [Category.HasMembers]

/-- The words of a derivation are alike to those that its tree is written as. -/
theorem Derives.alike (h : Derives c ws t n) (hws : ∀ w ∈ ws, w.IsPrintable) :
    List.Forall₂ Alike ws (c.words t) := by
  induction h with
  | whole _ ih | lift _ _ ih | additive _ _ ih | multiplicative _ _ ih | selected _ ih =>
    exact ih hws
  | union _ _ ih => simpa only [Category.words, Expr.wordsOf_union] using ih hws
  | or _ _ ih => simpa only [Category.words, Expr.wordsOf_or] using ih hws
  | and _ _ ih => simpa only [Category.words, Expr.wordsOf_and] using ih hws
  | @comparison _ _ _ _ _ _ _ op _ _ ih ih' =>
    simp only [Category.words, Expr.wordsOf_comparison]
    exact Word.alike_infix hws (by cases op <;> rfl) ih ih'
  -- rows
  | firstDisjunct _ ih | firstConjunct _ ih | firstArgument _ ih | firstMember _ ih
  | firstStep _ ih => exact Word.alike_first (ih hws)
  | nextDisjunct h _ ih ih' | nextConjunct h _ ih ih' | nextArgument h _ ih ih'
  | nextMember h _ ih ih' | nextStep h _ ih ih' =>
    exact Word.alike_next hws rfl h.hasMembers ih ih'
  | firstTerm _ ih =>
    simpa only [Category.words, Expr.wordsOf_additive, List.flatMap_nil, List.append_nil] using
      ih hws
  | @nextTerm _ _ _ _ _ _ _ _ op _ _ ih ih' =>
    have hall := Word.alike_infix hws (by cases op <;> rfl) ih ih'
    simpa only [Category.words, Expr.wordsOf_additive, List.flatMap_append, List.flatMap_singleton,
      List.append_assoc] using hall
  | firstFactor _ ih =>
    simpa only [Category.words, Expr.wordsOf_multiplicative, List.flatMap_nil, List.append_nil]
      using ih hws
  | @nextFactor _ _ _ _ _ _ _ _ op _ _ ih ih' =>
    have hall := Word.alike_infix hws (by cases op <;> rfl) ih ih'
    simpa only [Category.words, Expr.wordsOf_multiplicative, List.flatMap_append,
      List.flatMap_singleton, List.append_assoc] using hall
  -- primaries
  | number hd => exact Expr.alike_number hd (hws _ (List.mem_singleton_self _)).2
  | literal => exact .cons (Word.alike_quoted (hws _ (List.mem_singleton_self _))) .nil
  | system | current | parent | plainWildcard =>
    exact .cons (Word.alike_symbol (hws _ (List.mem_singleton_self _)) rfl) .nil
  | variableRef =>
    exact .cons (Word.alike_symbol (hws _ List.mem_cons_self) rfl) (.cons (.same _) .nil)
  | callEmpty =>
    simp only [List.forall_mem_append, List.forall_mem_cons] at hws
    simp only [Category.words, Expr.pieces, Call.wordsOf_mk]
    exact List.rel_append (Word.alike_optional hws.1 rfl) (.cons (.same _)
      (.cons (Word.alike_symbol hws.2.2.1 rfl) (.cons (Word.alike_symbol hws.2.2.2.1 rfl) .nil)))
  | call _ ih =>
    rw [List.forall_mem_append, List.forall_mem_cons] at hws
    simp only [Category.words, Expr.pieces, Call.wordsOf_mk]
    exact List.rel_append (Word.alike_optional hws.1 rfl)
      (.cons (.same _) (Word.alike_between hws.2.2 rfl rfl ih))
  | group _ ih =>
    simp only [Category.words, Expr.wordsOf_group]
    exact Word.alike_between hws rfl rfl ih
  -- selectors
  | scopedSelector _ ih =>
    rw [List.forall_mem_cons] at hws
    simp only [Category.words, Selector.wordsOf_scoped]
    exact .cons (Word.alike_symbol hws.1 rfl) (Word.alike_between hws.2 rfl rfl ih)
  | path _ ih =>
    rw [List.forall_mem_append] at hws
    simp only [Category.words, Selector.wordsOf_steps]
    exact List.rel_append (Word.alike_optional hws.1 rfl) (ih hws.2)
  | named _ _ ih ih' =>
    simp only [List.forall_mem_append] at hws
    simp only [Category.words, Step.wordsOf_named]
    exact List.rel_append (List.rel_append (Word.alike_optional hws.1.1 rfl) (ih hws.1.2))
      (ih' hws.2)
  | plainName => exact .cons (.same _) .nil
  | qualifiedName =>
    simp only [List.forall_mem_cons] at hws
    exact .cons (.same _) (.cons (Word.alike_symbol hws.2.1 rfl) (.cons (.same _) .nil))
  | qualifiedWildcard =>
    simp only [List.forall_mem_cons] at hws
    exact .cons (.same _)
      (.cons (Word.alike_symbol hws.2.1 rfl) (.cons (Word.alike_symbol hws.2.2.1 rfl) .nil))
  -- predicates
  | absent | noFilter => exact .nil
  | index hi => exact Word.alike_indexed hws hi
  | filtered _ ih =>
    simp only [Category.words, Predicate.wordsOf_filter]
    exact Word.alike_between hws rfl rfl ih
  | filteredIndex _ hi ih =>
    rw [List.forall_mem_cons] at hws
    simp only [Category.words, Predicate.wordsOf_filterThenIndex]
    exact .cons (Word.alike_symbol hws.1 rfl)
      (Word.alike_infix hws.2 rfl ih fun hindex => Word.alike_indexed hindex hi)
  | doubleIndex hi hj =>
    rw [List.forall_mem_cons, List.forall_mem_cons, List.forall_mem_cons] at hws
    obtain ⟨hopen, hnumber, hclose, hindex⟩ := hws
    simp only [Category.words, Predicate.wordsOf_filterThenIndex]
    exact .cons (Word.alike_symbol hopen rfl) (List.rel_append (Filter.alike_index hnumber hi)
      (.cons (Word.alike_symbol hclose rfl) (Word.alike_indexed hindex hj)))
  | someFilter h _ ih =>
    exact Filter.alike_ofExpr (h.isFinite_numbers fun w hw => (hws w hw).2) (ih hws)

/-- The numbers among the words of a derivation are numbers of its tree or indexes. -/
theorem Derives.isFinite_words (h : Derives c ws t n)
    (hfinite : ∀ x ∈ c.numbers t, x.isFinite = true) : ∀ w ∈ ws, w.IsFinite := by
  induction h
  case number hd =>
    simpa using Word.isFinite_number hd (hfinite _ (List.mem_singleton_self _))
  all_goals simp_all [Category.numbers, Expr.numbers, Expr.allNumbers, Expr.sumNumbers,
    Expr.productNumbers, Call.numbers, Selector.numbers, Selector.allNumbers, Step.numbers,
    Step.allNumbers, Predicate.numbers, Filter.numbers_ofExpr, Word.isFinite_of_kind_ne,
    Word.mem_optional, Word.isFinite_index, RelationalOp.kind_ne_number,
    AdditiveOp.kind_ne_number, MultiplicativeOp.kind_ne_number, or_imp, forall_and]

end Grammar

/-! ## Texts -/

variable {text : String} {settings : Settings} {A : Parsed}

/-- A text that is parsed as an expression with finite numbers and the canonical text of this
expression have the same number of tokens, which are alike one by one. -/
theorem alike_tokens_of_parse (h : parse settings text = .ok A)
    (hfinite : ∀ x ∈ A.root.numbers, x.isFinite = true) :
    ∃ ts us, Token.scan text = .ok ts ∧ Token.scan A.root.print = .ok us ∧
      List.Forall₂ Alike (ts.map Token.word) (us.map Token.word) := by
  obtain ⟨ts, n, hscan, -, hderives, -⟩ := derives_of_parse h
  obtain ⟨us, hus, hprint⟩ := Expr.tokens_print (isWellFormed_of_parse h)
  obtain ⟨body, rfl, hbody⟩ := Token.forall_word_of_scan Token.isSpelled_lexeme hscan
  rw [List.dropLast_concat] at hderives
  have hprintable : ∀ w ∈ body.map Token.word, w.IsPrintable := fun w hw =>
    ⟨List.forall_mem_map.2 hbody w hw, hderives.isFinite_words hfinite w hw⟩
  have hwords := hderives.alike hprintable
  refine ⟨_, _, hscan, hprint, ?_⟩
  rw [List.map_append, List.map_append, hus]
  exact List.rel_append hwords (.cons (.same _) .nil)

theorem scan_respelled : Token.scan "\"b\"+1.0" =
    .ok [⟨.literal, "\"b\"", 0⟩, ⟨.plus, "+", 3⟩, ⟨.number, "1.0", 4⟩, .eof 7] := by
  decide +kernel

/-- A sum with a literal in double quotes and with a fraction of zero, which are both spelled
otherwise when it is printed. -/
theorem alike_tokens_respelled : ∃ A us, parse ⟨1⟩ "\"b\"+1.0" = .ok A ∧
    (∀ x ∈ A.root.numbers, x.isFinite = true) ∧ Token.scan A.root.print = .ok us ∧
    List.Forall₂ Alike
      [⟨.literal, "\"b\""⟩, symbol .plus, ⟨.number, "1.0"⟩, (Token.eof 7).word]
      (us.map Token.word) := by
  have hparse : ∃ A, parse ⟨1⟩ "\"b\"+1.0" = .ok A ∧
      ∀ x ∈ A.root.numbers, x.isFinite = true := by
    rw [parse_of_scan scan_respelled]
    exact ⟨_, rfl, by decide +kernel⟩
  obtain ⟨A, hA, hfinite⟩ := hparse
  obtain ⟨ts, us, hts, hus, halike⟩ := alike_tokens_of_parse hA hfinite
  obtain rfl := Except.ok.inj (scan_respelled.symm.trans hts)
  exact ⟨A, us, hA, hfinite, hus, halike⟩

end MapExpr
