import MapExpr.Proofs.Token.Classes
import MapExpr.Proofs.Token.Spelled

/-!
# The longest lexeme

The first class that has a lexeme in front of a text has the longest lexeme of any class, and that
is a lexeme of only one kind.

* `IsNumber.exists_lexeme?`, `IsLiteral.lexeme?`, `IsName.lexeme?`, `exists_lexeme?_mark`: what is
  found in front of a text that begins with a lexeme of a class;
* `Belongs.exists_lexeme?`, `Belongs.unique`: it is at least as long, and its kind is the only one;
* `IsLongest`, `lexeme?_eq_some_iff`, `lexeme?_eq_none_iff`: what is found is the longest lexeme.
-/

namespace MapExpr.Token

variable {k k' : Kind} {s p front rest : List Char} {l : Lexeme}

/-! ## Numbers -/

theorem IsUnsigned.exists_unsigned? (h : IsUnsigned p) (rest : List Char) :
    ∃ c, unsigned? (p ++ rest) = some c ∧ p.length ≤ c.front.length := by
  cases h with
  | whole h =>
    have htake : (p ++ rest).takeWhile Char.isDigit = p ++ rest.takeWhile Char.isDigit :=
      List.takeWhile_append_of_pos h.2
    have hne : p ++ rest.takeWhile Char.isDigit ≠ [] := List.append_ne_nil_of_left_ne_nil h.1 _
    simp only [unsigned?, Cut.rest_run, Cut.front_run, htake, hne, false_and, ↓reduceIte]
    split
    · exact ⟨_, rfl, by simp only [Cut.front_after, List.length_append]; omega⟩
    · exact ⟨_, rfl, by simp [htake]⟩
  | @pointed s fraction hs hfraction =>
    have hpoint : ∀ c ∈ ('.' :: (fraction ++ rest)).head?, c.isDigit = false := by simp
    obtain ⟨htake, hdrop⟩ := takeWhile_isDigit_append hs.2 hpoint
    have htake' : (fraction ++ rest).takeWhile Char.isDigit =
        fraction ++ rest.takeWhile Char.isDigit := List.takeWhile_append_of_pos hfraction
    simp only [unsigned?, List.append_assoc, List.cons_append, Cut.rest_run, Cut.front_run, htake,
      hdrop, hs.1, false_and, ↓reduceIte]
    exact ⟨_, rfl, by simp [htake']⟩
  | @fraction s h =>
    have htake : (s ++ rest).takeWhile Char.isDigit = s ++ rest.takeWhile Char.isDigit :=
      List.takeWhile_append_of_pos h.2
    have hne : s ++ rest.takeWhile Char.isDigit ≠ [] := List.append_ne_nil_of_left_ne_nil h.1 _
    have hpoint : Char.isDigit '.' = false := rfl
    simp only [unsigned?, List.cons_append, Cut.rest_run, Cut.front_run, List.takeWhile_cons,
      List.dropWhile_cons, hpoint, Bool.false_eq_true, ↓reduceIte, htake, hne, and_false]
    exact ⟨_, rfl, by simp [htake]⟩

/-- An unsigned number begins with a digit or a point. -/
theorem IsUnsigned.eq_cons (h : IsUnsigned p) :
    ∃ c s, p = c :: s ∧ (c.isDigit = true ∨ c = '.') := by
  have hdigits : ∀ {s t : List Char}, IsDigits s →
      ∃ c t', s ++ t = c :: t' ∧ (c.isDigit = true ∨ c = '.') := by
    intro s t hs
    obtain ⟨c, s, rfl⟩ := List.exists_cons_of_ne_nil hs.1
    exact ⟨c, s ++ t, rfl, .inl (hs.2 c List.mem_cons_self)⟩
  cases h with
  | whole h => simpa using hdigits (t := []) h
  | pointed h _ => exact hdigits h
  | fraction _ => exact ⟨_, _, rfl, .inr rfl⟩

theorem IsNumber.exists_number? (h : IsNumber p) (rest : List Char) :
    ∃ c, number? (p ++ rest) = some c ∧ p.length ≤ c.front.length := by
  cases h with
  | positive h =>
    obtain ⟨c, hc, hle⟩ := h.exists_unsigned? rest
    obtain ⟨d, s, rfl, hd⟩ := h.eq_cons
    have hminus : d ≠ '-' := by
      rintro rfl
      exact absurd hd (by decide)
    refine ⟨c, ?_, hle⟩
    rw [← hc, List.cons_append]
    unfold number?
    split
    · rename_i heq
      exact absurd (List.cons.inj heq).1 hminus
    · rfl
  | negative h =>
    obtain ⟨c, hc, hle⟩ := h.exists_unsigned? rest
    exact ⟨c.after ['-'], by rw [List.cons_append, number?, hc]; rfl, by simp; omega⟩

theorem IsNumber.exists_lexeme? (h : IsNumber p) (rest : List Char) :
    ∃ c, lexeme? (p ++ rest) = some ⟨c, .number⟩ ∧ p.length ≤ c.front.length := by
  obtain ⟨c, hc, hle⟩ := h.exists_number? rest
  exact ⟨c, lexeme?_of_number? hc, hle⟩

/-! ## Literals, names and marks -/

theorem IsLiteral.lexeme? (h : IsLiteral p) (rest : List Char) :
    lexeme? (p ++ rest) = some ⟨⟨p, rest⟩, .literal⟩ := by
  cases h with
  | @quoted quote contents hquote hmem =>
    have hfound := quoted?_append hmem rest
    have hshape : quote :: contents ++ [quote] ++ rest = quote :: (contents ++ quote :: rest) := by
      simp
    rw [hshape]
    rcases hquote with rfl | rfl
    · exact lexeme?_of_literal? (number?_eq_none _ rfl (by decide) (by decide)) hfound
    · exact lexeme?_of_literal? (number?_eq_none _ rfl (by decide) (by decide)) hfound

/-- A name goes on as far as it can. -/
theorem IsName.lexeme? (h : IsName p) (rest : List Char) :
    lexeme? (p ++ rest) = some ⟨⟨p ++ rest.takeWhile Name.isPart, rest.dropWhile Name.isPart⟩,
      .ofName (.ofList (p ++ rest.takeWhile Name.isPart))⟩ := by
  cases h with
  | @mk c s hc hs =>
    have hall : ∀ d ∈ s ++ rest.takeWhile Name.isPart, Name.isPart d = true :=
      List.forall_mem_append.2 ⟨hs, List.all_eq_true.1 List.all_takeWhile⟩
    have hdelimited : Delimited (rest.dropWhile Name.isPart) := by
      intro d hd
      have hnot := List.head?_dropWhile_not Name.isPart rest
      rw [Option.mem_def.1 hd] at hnot
      simpa using hnot
    have hfound := lexeme?_ofName hc hall hdelimited
    rwa [List.cons_append, List.append_assoc, List.takeWhile_append_dropWhile] at hfound

/-- The marks of two characters come before all others. -/
theorem lexeme?_double (hk : k ∈ [.dotDot, .colonColon, .lessEqual, .greaterEqual, .notEqual])
    (rest : List Char) : lexeme? ((Word.symbol k).text.toList ++ rest) =
      some ⟨⟨(Word.symbol k).text.toList, rest⟩, k⟩ := by
  simp only [List.mem_cons, List.not_mem_nil, or_false] at hk
  rcases hk with rfl | rfl | rfl | rfl | rfl <;> rfl

theorem mark?_symbol (hk : k ∈ Kind.marks) (rest : List Char) :
    mark? k ((Word.symbol k).text.toList ++ rest) = some ⟨(Word.symbol k).text.toList, rest⟩ := by
  have hspelling : ∀ k ∈ Kind.marks, k.spelling? = some (Word.symbol k).text ∧
      (Word.symbol k).text.toList ≠ [] := by decide
  obtain ⟨hsome, hne⟩ := hspelling k hk
  simp only [mark?, hsome, Option.bind_eq_bind, Option.bind_some]
  rw [if_pos ⟨hne, List.prefix_append _ _⟩, List.drop_left]

/-- In front of a mark there is a lexeme. It may be a number or a longer mark. -/
theorem exists_lexeme?_mark (hk : k ∈ Kind.marks) (rest : List Char) :
    ∃ l, lexeme? ((Word.symbol k).text.toList ++ rest) = some l := by
  refine Option.isSome_iff_exists.1 ?_
  have hmarks : (Kind.marks.findSome? fun k' =>
      (mark? k' ((Word.symbol k).text.toList ++ rest)).map (Lexeme.mk · k')).isSome = true :=
    List.findSome?_isSome_iff.2 ⟨k, hk, by rw [mark?_symbol hk]; rfl⟩
  simp only [lexeme?, Option.orElse_eq_orElse, Option.orElse_eq_or, Option.isSome_or, hmarks,
    Bool.or_true]

theorem lexeme?_mark : ∀ k ∈ Kind.marks, lexeme? (Word.symbol k).text.toList =
    some ⟨⟨(Word.symbol k).text.toList, []⟩, k⟩ := by
  decide

/-! ## The longest lexeme -/

/-- A mark is the text of its symbol. -/
theorem eq_symbol_of_spelling? (h : k.spelling? = some (.ofList s)) :
    s = (Word.symbol k).text.toList := by
  simp [Word.symbol, Piece.symbol, Piece.text, h]

/-- In front of a text that begins with a lexeme, one is found that is at least as long. -/
theorem Belongs.exists_lexeme? (h : Belongs k p) (rest : List Char) :
    ∃ l, lexeme? (p ++ rest) = some l ∧ p.length ≤ l.front.length := by
  have hname : IsName p → ∃ l, lexeme? (p ++ rest) = some l ∧ p.length ≤ l.front.length :=
    fun h => ⟨_, h.lexeme? rest, by simp⟩
  cases h with
  | number h =>
    obtain ⟨c, hc, hle⟩ := h.exists_lexeme? rest
    exact ⟨_, hc, hle⟩
  | literal h => exact ⟨_, h.lexeme? rest, Nat.le_refl _⟩
  | keyword h _ _ | identifier h _ => exact hname h
  | mark hk hspelling =>
    obtain rfl := eq_symbol_of_spelling? hspelling
    have hlength : ∀ k ∈ Kind.marks, k ∈ [.dotDot, .colonColon, .lessEqual, .greaterEqual,
        .notEqual] ∨ (Word.symbol k).text.toList.length = 1 := by decide
    rcases hlength k hk with hdouble | hsingle
    · exact ⟨_, lexeme?_double hdouble rest, Nat.le_refl _⟩
    · obtain ⟨l, hl⟩ := exists_lexeme?_mark hk rest
      exact ⟨l, hl, hsingle ▸ List.length_pos_iff.2 (splits_of_lexeme? hl).2⟩

/-- A lexeme on its own is found with its kind. -/
theorem Belongs.lexeme?_kind (h : Belongs k p) : (lexeme? p).map Lexeme.kind = some k := by
  rw [← List.append_nil p]
  cases h with
  | number h =>
    obtain ⟨c, hc, -⟩ := h.exists_lexeme? []
    rw [hc]
    rfl
  | literal h =>
    rw [h.lexeme? []]
    rfl
  | keyword h hk hspelling =>
    rw [h.lexeme? []]
    simp [Kind.ofName, Kind.keyword?_of_spelling? hk hspelling]
  | identifier h hnot =>
    have hkeyword : Kind.keyword? (.ofList p) = none := by
      simpa [Kind.keyword?] using hnot
    rw [h.lexeme? []]
    simp [Kind.ofName, hkeyword]
  | mark hk hspelling =>
    obtain rfl := eq_symbol_of_spelling? hspelling
    rw [List.append_nil, lexeme?_mark k hk]
    rfl

/-- A text is a lexeme of only one kind. -/
theorem Belongs.unique (h : Belongs k p) (h' : Belongs k' p) : k = k' :=
  Option.some.inj (h.lexeme?_kind.symm.trans h'.lexeme?_kind)

/-- The longest lexeme in front of `s` is `front`, and its kind is `k`. -/
structure IsLongest (k : Kind) (front s : List Char) : Prop where
  begins : front <+: s
  belongs : Belongs k front
  longest : ∀ {k' : Kind} {p : List Char}, p <+: s → Belongs k' p →
    p.length < front.length ∨ p = front ∧ k' = k

theorem isLongest_of_lexeme? (h : lexeme? s = some l) : IsLongest l.kind l.front s where
  begins := ⟨l.rest, (splits_of_lexeme? h).1⟩
  belongs := belongs_of_lexeme? h
  longest {k' p} hp hbelongs := by
    have hfront : l.front <+: s := ⟨l.rest, (splits_of_lexeme? h).1⟩
    obtain ⟨rest, rfl⟩ := hp
    obtain ⟨l', hl', hle⟩ := hbelongs.exists_lexeme? rest
    obtain rfl := Option.some.inj (h.symm.trans hl')
    rcases Nat.lt_or_eq_of_le hle with hlt | heq
    · exact .inl hlt
    · obtain rfl : p = l.front :=
        (List.prefix_of_prefix_length_le (List.prefix_append p rest) hfront hle).eq_of_length heq
      exact .inr ⟨rfl, hbelongs.unique (belongs_of_lexeme? h)⟩

/-- A lexeme is found exactly if it is the longest in front of the text. -/
theorem lexeme?_eq_some_iff :
    lexeme? s = some l ↔ IsLongest l.kind l.front s ∧ l.front ++ l.rest = s := by
  constructor
  · exact fun h => ⟨isLongest_of_lexeme? h, (splits_of_lexeme? h).1⟩
  · rintro ⟨hlongest, rfl⟩
    obtain ⟨l', hl', hle⟩ := hlongest.belongs.exists_lexeme? l.rest
    obtain ⟨hsplit, -⟩ := splits_of_lexeme? hl'
    rcases hlongest.longest ⟨l'.rest, hsplit⟩ (belongs_of_lexeme? hl') with hlt | ⟨hfront, hkind⟩
    · omega
    · rw [hfront] at hsplit
      have hrest := List.append_cancel_left hsplit
      obtain ⟨⟨front, rest⟩, k⟩ := l
      obtain ⟨⟨front', rest'⟩, k'⟩ := l'
      simp only at hfront hrest hkind
      rw [hl', hfront, hrest, hkind]

/-- None is found exactly if the text begins with none. -/
theorem lexeme?_eq_none_iff : lexeme? s = none ↔ ∀ k p, p <+: s → ¬ Belongs k p := by
  constructor
  · rintro h k _ ⟨rest, rfl⟩ hbelongs
    obtain ⟨l, hl, -⟩ := hbelongs.exists_lexeme? rest
    cases h.symm.trans hl
  · intro h
    cases hl : lexeme? s with
    | none => rfl
    | some l => exact absurd (belongs_of_lexeme? hl) (h _ _ (isLongest_of_lexeme? hl).begins)

end MapExpr.Token
