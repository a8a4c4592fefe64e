import MapExpr.Token.Lexeme

/-!
# Classes of lexemes

Which texts are lexemes of a kind, said without the way in which a lexeme is found.

* `IsNumber`, `IsLiteral`, `IsName`: the classes of numbers, literals and names;
* `Belongs`: the texts of a kind, among them the names that are no keywords;
* `IsNumber.isDigit_or`: the characters of a number;
* `isNumber_of_number?`, `isLiteral_of_literal?`, `isName_of_name?`, `spelling?_of_mark?`: what is
  found of a class is in the class;
* `belongs_of_lexeme?`: what is found in front of a text belongs to its kind.
-/

namespace MapExpr.Token

/-! ## The classes -/

/-- One digit or more. -/
def IsDigits (s : List Char) : Prop :=
  s ≠ [] ∧ ∀ c ∈ s, c.isDigit = true

/-- Digits, perhaps with a point and a fraction after them, or a point and digits. -/
inductive IsUnsigned : List Char → Prop
  | whole {s : List Char} : IsDigits s → IsUnsigned s
  | pointed {s fraction : List Char} : IsDigits s → (∀ c ∈ fraction, c.isDigit = true) →
      IsUnsigned (s ++ '.' :: fraction)
  | fraction {s : List Char} : IsDigits s → IsUnsigned ('.' :: s)

/-- An unsigned number with an optional minus sign. -/
inductive IsNumber : List Char → Prop
  | positive {s : List Char} : IsUnsigned s → IsNumber s
  | negative {s : List Char} : IsUnsigned s → IsNumber ('-' :: s)

/-- Any characters between two quotes that are not among them. -/
inductive IsLiteral : List Char → Prop
  | quoted {quote : Char} {contents : List Char} : quote = '\x27' ∨ quote = '"' →
      quote ∉ contents → IsLiteral (quote :: contents ++ [quote])

/-- A start character and name characters. -/
inductive IsName : List Char → Prop
  | mk {c : Char} {s : List Char} : Name.isStart c = true → (∀ d ∈ s, Name.isPart d = true) →
      IsName (c :: s)

/-- The text `s` is a lexeme of the kind `k`. -/
inductive Belongs : Kind → List Char → Prop
  | number {s : List Char} : IsNumber s → Belongs .number s
  | literal {s : List Char} : IsLiteral s → Belongs .literal s
  | keyword {k : Kind} {s : List Char} : IsName s → k ∈ Kind.keywords →
      k.spelling? = some (.ofList s) → Belongs k s
  | identifier {s : List Char} : IsName s →
      (∀ k ∈ Kind.keywords, k.spelling? ≠ some (.ofList s)) → Belongs .identifier s
  | mark {k : Kind} {s : List Char} : k ∈ Kind.marks → k.spelling? = some (.ofList s) → Belongs k s

variable {k : Kind} {s : List Char} {c : Cut}

theorem IsUnsigned.isDigit_or (h : IsUnsigned s) : ∀ d ∈ s, d.isDigit = true ∨ d = '.' := by
  cases h with
  | whole h => exact fun d hd => .inl (h.2 d hd)
  | pointed h hfraction =>
    exact List.forall_mem_append.2 ⟨fun d hd => .inl (h.2 d hd),
      List.forall_mem_cons.2 ⟨.inr rfl, fun d hd => .inl (hfraction d hd)⟩⟩
  | fraction h => exact List.forall_mem_cons.2 ⟨.inr rfl, fun d hd => .inl (h.2 d hd)⟩

/-- A number is made of digits, a point and a minus sign. -/
theorem IsNumber.isDigit_or (h : IsNumber s) :
    ∀ d ∈ s, d.isDigit = true ∨ d = '.' ∨ d = '-' := by
  cases h with
  | positive h => exact fun d hd => (h.isDigit_or d hd).imp_right .inl
  | negative h =>
    exact List.forall_mem_cons.2 ⟨.inr (.inr rfl), fun d hd => (h.isDigit_or d hd).imp_right .inl⟩

/-- A name belongs to the keyword that it spells, or else to the identifiers. -/
theorem IsName.belongs (h : IsName s) : Belongs (.ofName (.ofList s)) s := by
  simp only [Kind.ofName]
  cases hk : Kind.keyword? (.ofList s) with
  | none =>
    refine .identifier h fun k hk' hspelling => ?_
    cases hk.symm.trans (Kind.keyword?_of_spelling? hk' hspelling)
  | some k => exact .keyword h (List.mem_of_find?_eq_some hk) (Kind.spelling?_of_keyword? hk)

/-! ## What is found -/

theorem isDigit_of_mem_takeWhile {s : List Char} :
    ∀ c ∈ s.takeWhile Char.isDigit, c.isDigit = true :=
  List.all_eq_true.1 List.all_takeWhile

theorem isUnsigned_of_unsigned? (h : unsigned? s = some c) : IsUnsigned c.front := by
  simp only [unsigned?] at h
  split at h
  · simp only [Option.ite_none_left_eq_some, Option.some.injEq, not_and] at h
    obtain ⟨hsome, rfl⟩ := h
    simp only [Cut.front_after, Cut.front_run, List.append_assoc, List.singleton_append]
    by_cases hwhole : (s.takeWhile Char.isDigit) = []
    · rw [hwhole, List.nil_append]
      exact .fraction ⟨hsome hwhole, isDigit_of_mem_takeWhile⟩
    · exact .pointed ⟨hwhole, isDigit_of_mem_takeWhile⟩ isDigit_of_mem_takeWhile
  · simp only [Option.ite_none_left_eq_some, Option.some.injEq] at h
    obtain ⟨hne, rfl⟩ := h
    exact .whole ⟨hne, isDigit_of_mem_takeWhile⟩

theorem isNumber_of_number? (h : number? s = some c) : IsNumber c.front := by
  unfold number? at h
  split at h
  · obtain ⟨c, hc, rfl⟩ := Option.map_eq_some_iff.1 h
    exact .negative (isUnsigned_of_unsigned? hc)
  · exact .positive (isUnsigned_of_unsigned? h)

theorem isLiteral_of_literal? (h : literal? s = some c) : IsLiteral c.front := by
  have hquoted : ∀ {quote : Char} {s : List Char}, quote = '\x27' ∨ quote = '"' →
      quoted? quote s = some c → IsLiteral c.front := by
    intro quote s hquote h
    simp only [quoted?] at h
    split at h
    · cases h
    · rename_i close s' hrest
      obtain rfl := Option.some.inj h
      have hclose := List.head?_dropWhile_not (· ≠ quote) s
      rw [show s.dropWhile (· ≠ quote) = close :: s' from hrest] at hclose
      obtain rfl : close = quote := by simpa using hclose
      refine .quoted hquote fun hmem => ?_
      simpa using List.all_eq_true.1 List.all_takeWhile _ hmem
  unfold literal? at h
  split at h
  · exact hquoted (.inl rfl) h
  · exact hquoted (.inr rfl) h
  · cases h

theorem isName_of_name? (h : name? s = some c) : IsName c.front := by
  unfold name? at h
  split at h
  · simp only [Option.ite_none_right_eq_some, Option.some.injEq] at h
    obtain ⟨hstart, rfl⟩ := h
    exact .mk hstart (List.all_eq_true.1 List.all_takeWhile)
  · cases h

theorem spelling?_of_mark? (h : mark? k s = some c) : k.spelling? = some (.ofList c.front) := by
  obtain ⟨spelling, hspelling, h⟩ := Option.bind_eq_some_iff.1 h
  simp only [Option.ite_none_right_eq_some] at h
  obtain ⟨-, h⟩ := h
  obtain rfl := Option.some.inj h
  rwa [String.ofList_toList]

/-- What is found in front of a text belongs to its kind. -/
theorem belongs_of_lexeme? {l : Lexeme} (h : lexeme? s = some l) : Belongs l.kind l.front := by
  simp only [lexeme?, Option.orElse_eq_orElse, Option.orElse_eq_or, Option.or_eq_some_iff,
    Option.map_eq_some_iff] at h
  rcases h with ⟨c, hc, rfl⟩ | ⟨-, ⟨c, hc, rfl⟩ | ⟨-, ⟨c, hc, rfl⟩ | ⟨-, h⟩⟩⟩
  · exact .number (isNumber_of_number? hc)
  · exact .literal (isLiteral_of_literal? hc)
  · exact (isName_of_name? hc).belongs
  · obtain ⟨k, hk, h⟩ := List.exists_of_findSome?_eq_some h
    obtain ⟨c, hc, rfl⟩ := Option.map_eq_some_iff.1 h
    exact .mark hk (spelling?_of_mark? hc)

end MapExpr.Token
