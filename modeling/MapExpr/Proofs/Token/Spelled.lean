import MapExpr.Expr.Print
import MapExpr.Parse.Chain
import MapExpr.Proofs.Number.Numeral
import MapExpr.Proofs.Token.Items

/-!
# Tokens as they are written

A token that is written in front of a text is its first lexeme, if the text does not go on with it.
Most marks ask nothing of what follows; a name, a numeral and a point ask that it begins with no
character of a name (`Delimited`), and a colon that it begins with no colon.

* `lexeme?_plain`, `lexeme?_infix`, `lexeme?_dot`, `lexeme?_colon`: the marks;
* `lexeme?_name`, `lexeme?_quoted`, `lexeme?_numeral`: names, literals and numbers;
* `Stream.Gives`: what the front of a text is scanned as, wherever it stands.
-/

namespace MapExpr

namespace Kind

/-- A mark that is read whatever follows. -/
def isPlain : Kind → Bool
  | dollar | slash | leftParen | rightParen | leftBracket | rightBracket | star | atSign | comma
  | dotDot => true
  | _ => false

/-- A mark that ends a name or a numeral before it. -/
def isDelimiter (k : Kind) : Bool :=
  (Piece.symbol k).text.toList.head?.any (!Name.isPart ·)

/-- What stands between two operands, or between two members of a union. -/
def isInfix (k : Kind) : Bool :=
  k == pipe || (Parse.Operator.ofKind? k).isSome

end Kind

/-- The word of a kind with only one spelling. -/
def Word.symbol (k : Kind) : Word :=
  ⟨k, (Piece.symbol k).text⟩

namespace Token

/-- The text `rest` goes on with neither a name nor a numeral before it. -/
def Delimited (rest : List Char) : Prop :=
  ∀ c ∈ rest.head?, Name.isPart c = false

@[simp] theorem delimited_nil : Delimited [] := by
  simp [Delimited]

@[simp] theorem delimited_cons (c : Char) (s : List Char) :
    Delimited (c :: s) ↔ Name.isPart c = false := by
  simp [Delimited]

theorem Delimited.append {s rest : List Char} (hs : Delimited s) (hrest : Delimited rest) :
    Delimited (s ++ rest) := by
  cases s with
  | nil => exact hrest
  | cons c s => exact hs

theorem toNat_of_isDigit {c : Char} (h : c.isDigit = true) : 0x30 ≤ c.toNat ∧ c.toNat ≤ 0x39 := by
  simp only [Char.isDigit, Bool.and_eq_true, decide_eq_true_eq, ge_iff_le,
    UInt32.le_iff_toNat_le] at h
  exact h

theorem isPart_of_isDigit {c : Char} (h : c.isDigit = true) : Name.isPart c = true := by
  have hrange := toNat_of_isDigit h
  simp only [Name.isPart, Name.partRanges, Name.CodeRange.contains, List.any_cons]
  simp [hrange]

theorem isDigit_of_isStart {c : Char} (h : Name.isStart c = true) : c.isDigit = false := by
  rw [← Bool.not_eq_true]
  intro hdigit
  have hrange := toNat_of_isDigit hdigit
  simp [Name.isStart, Name.startRanges, Name.CodeRange.contains] at h
  omega

theorem Delimited.endsNumeral {rest : List Char} (h : Delimited rest) : EndsNumeral rest := by
  intro c hc
  have hpart := h c hc
  refine ⟨?_, ?_⟩
  · rw [← Bool.not_eq_true]
    exact fun hdigit => by simp [isPart_of_isDigit hdigit] at hpart
  · rintro rfl
    exact absurd hpart (by decide)

/-! ## The classes of a lexeme -/

theorem number?_eq_none {c : Char} (s : List Char) (hdigit : c.isDigit = false)
    (hminus : c ≠ '-') (hdot : c ≠ '.') : number? (c :: s) = none := by
  unfold number?
  split
  · simp_all
  · simp only [unsigned?, Cut.rest_run, Cut.front_run, List.takeWhile_cons, List.dropWhile_cons,
      hdigit]
    split <;> simp_all

theorem literal?_eq_none {c : Char} (s : List Char) (hsingle : c ≠ '\x27') (hdouble : c ≠ '"') :
    literal? (c :: s) = none := by
  unfold literal?
  split <;> simp_all

theorem lexeme?_of_number? {s : List Char} {c : Cut} (h : number? s = some c) :
    lexeme? s = some ⟨c, .number⟩ := by
  simp [lexeme?, h]

theorem lexeme?_of_literal? {s : List Char} {c : Cut} (hnumber : number? s = none)
    (h : literal? s = some c) : lexeme? s = some ⟨c, .literal⟩ := by
  simp [lexeme?, hnumber, h]

/-- The marks come last. -/
theorem lexeme?_eq_findSome? {c : Char} {s : List Char} (hnumber : number? (c :: s) = none)
    (hliteral : literal? (c :: s) = none) (hname : Name.isStart c = false) :
    lexeme? (c :: s) = Kind.marks.findSome? fun k => (mark? k (c :: s)).map (⟨·, k⟩) := by
  simp [lexeme?, hnumber, hliteral, name?, hname]

/-! ## Marks -/

variable {k : Kind} {rest : List Char}

theorem lexeme?_plain (hk : k.isPlain = true) (rest : List Char) :
    lexeme? ((Word.symbol k).text.toList ++ rest) =
      some ⟨⟨(Word.symbol k).text.toList, rest⟩, k⟩ := by
  cases k <;> first | rfl | simp [Kind.isPlain] at hk

theorem lexeme?_infix (hk : k.isInfix = true) (rest : List Char) :
    lexeme? ((Word.symbol k).text.toList ++ ' ' :: rest) =
      some ⟨⟨(Word.symbol k).text.toList, ' ' :: rest⟩, k⟩ := by
  cases k <;> first | rfl | simp [Kind.isInfix, Parse.Operator.ofKind?] at hk

theorem lexeme?_dot (h : Delimited rest) :
    lexeme? ('.' :: rest) = some ⟨⟨['.'], rest⟩, .dot⟩ := by
  cases rest with
  | nil => rfl
  | cons c s =>
    obtain ⟨hdigit, hdot⟩ := h.endsNumeral c (by simp)
    have hnumber : number? ('.' :: c :: s) = none := by
      simp [number?, unsigned?, hdigit]
    rw [lexeme?_eq_findSome? hnumber rfl (by decide)]
    simp [Kind.marks, mark?, Kind.spelling?, hdot.symm]

theorem lexeme?_colon (h : ∀ c ∈ rest.head?, c ≠ ':') :
    lexeme? (':' :: rest) = some ⟨⟨[':'], rest⟩, .colon⟩ := by
  cases rest with
  | nil => rfl
  | cons c s =>
    have hcolon : c ≠ ':' := h c (by simp)
    rw [lexeme?_eq_findSome? (number?_eq_none _ rfl (by decide) (by decide)) rfl (by decide)]
    simp [Kind.marks, mark?, Kind.spelling?, hcolon.symm]

/-! ## Names, literals and numbers -/

theorem lexeme?_ofName {c : Char} {s : List Char} (hc : Name.isStart c = true)
    (hs : ∀ d ∈ s, Name.isPart d = true) (h : Delimited rest) :
    lexeme? (c :: s ++ rest) = some ⟨⟨c :: s, rest⟩, .ofName (.ofList (c :: s))⟩ := by
  have hne : ∀ {d : Char}, Name.isStart d = false → c ≠ d := by
    rintro d hd rfl
    simp [hc] at hd
  have hnumber : number? (c :: (s ++ rest)) = none :=
    number?_eq_none _ (isDigit_of_isStart hc) (hne (by decide)) (hne (by decide))
  have hliteral : literal? (c :: (s ++ rest)) = none :=
    literal?_eq_none _ (hne (by decide)) (hne (by decide))
  have htake : (s ++ rest).takeWhile Name.isPart = s := by
    rw [List.takeWhile_append_of_pos hs]
    cases rest <;> simp_all
  have hdrop : (s ++ rest).dropWhile Name.isPart = rest := by
    rw [List.dropWhile_append_of_pos hs]
    cases rest <;> simp_all
  simp [lexeme?, hnumber, hliteral, name?, hc, Cut.run, Cut.after, htake, hdrop]

theorem lexeme?_name {x : String} (hx : Name.isFree x = true) (h : Delimited rest) :
    lexeme? (x.toList ++ rest) = some ⟨⟨x.toList, rest⟩, .identifier⟩ := by
  unfold Name.isFree at hx
  split at hx
  · simp at hx
  · rename_i c s hlist
    simp only [Bool.and_eq_true, List.all_eq_true, Option.isNone_iff_eq_none] at hx
    obtain ⟨⟨hc, hs⟩, hkeyword⟩ := hx
    rw [hlist, lexeme?_ofName hc hs h, ← hlist, String.ofList_toList, Kind.ofName, hkeyword]
    rfl

theorem lexeme?_system (h : Delimited rest) :
    lexeme? ((Word.symbol .systemWord).text.toList ++ rest) =
      some ⟨⟨(Word.symbol .systemWord).text.toList, rest⟩, .systemWord⟩ :=
  have hparts : "ystem".toList.all Name.isPart = true := by decide
  lexeme?_ofName (c := 'S') (by decide) (List.all_eq_true.1 hparts) h

/-- A literal ends at its second quote. -/
theorem quoted?_append {quote : Char} {contents : List Char} (h : quote ∉ contents)
    (rest : List Char) : quoted? quote (contents ++ quote :: rest) =
      some ⟨quote :: contents ++ [quote], rest⟩ := by
  have hpass : ∀ c ∈ contents, decide (c ≠ quote) = true := by
    intro c hc
    simp only [ne_eq, decide_not, Bool.not_eq_true', decide_eq_false_iff_not]
    rintro rfl
    exact h hc
  simp only [quoted?, Cut.rest_run, Cut.front_run, List.takeWhile_append_of_pos hpass,
    List.dropWhile_append_of_pos hpass]
  simp

/-- The quotes of a literal are not among its contents. -/
theorem lexeme?_quoted {contents : String}
    (h : Constant.isWellFormed (.literal contents) = true) (rest : List Char) :
    lexeme? ((Constant.quoted contents).toList ++ rest) =
      some ⟨⟨(Constant.quoted contents).toList, rest⟩, .literal⟩ := by
  have hquoted : ∀ {quote : Char}, contents.contains quote = false →
      quoted? quote (contents.toList ++ quote :: rest) =
        some ⟨quote :: contents.toList ++ [quote], rest⟩ := fun hquote =>
    quoted?_append (by simpa using hquote) rest
  simp only [Constant.isWellFormed, Bool.not_eq_true', Bool.and_eq_false_iff] at h
  unfold Constant.quoted
  split
  · rename_i hsingle
    have hdouble : contents.contains '"' = false := by simpa [hsingle] using h
    have hshape : ("\"" ++ contents ++ "\"").toList ++ rest =
        '"' :: (contents.toList ++ '"' :: rest) := by simp
    have hnumber := number?_eq_none (c := '"') (contents.toList ++ '"' :: rest) rfl
      (by decide) (by decide)
    rw [hshape, lexeme?_of_literal? hnumber (hquoted hdouble)]
    simp
  · rename_i hsingle
    have hshape : ("'" ++ contents ++ "'").toList ++ rest =
        '\x27' :: (contents.toList ++ '\x27' :: rest) := by simp
    have hnumber := number?_eq_none (c := '\x27') (contents.toList ++ '\x27' :: rest) rfl
      (by decide) (by decide)
    rw [hshape, lexeme?_of_literal? hnumber (hquoted (by simpa using hsingle))]
    simp

theorem unquoted_quoted (contents : String) :
    Parse.unquoted (Constant.quoted contents) = contents := by
  unfold Constant.quoted Parse.unquoted
  split <;> simp

theorem lexeme?_numeral (h : Delimited rest) (negative : Bool) (places n : Nat) :
    lexeme? (Decimal.numeral negative places n ++ rest) =
      some ⟨⟨Decimal.numeral negative places n, rest⟩, .number⟩ :=
  lexeme?_of_number? (number?_numeral h.endsNumeral negative places n)

/-! ## Scanning -/

namespace Stream

/-- Wherever it stands, `s` begins with the words `ws`, and `rest` is left after them. -/
def Gives (s : List Char) (ws : List Word) (rest : List Char) : Prop :=
  ∀ offset, ∃ (ts : List Token) (offset' : Nat), ts.map Token.word = ws ∧
    (reading offset s).items = ts.map .ok ++ (reading offset' rest).items

variable {s s' : List Char} {ws us : List Word}

theorem Gives.refl (s : List Char) : Gives s [] s :=
  fun offset => ⟨[], offset, rfl, rfl⟩

theorem Gives.trans (h : Gives s ws s') (h' : Gives s' us rest) : Gives s (ws ++ us) rest := by
  intro offset
  obtain ⟨ts, offset', rfl, hts⟩ := h offset
  obtain ⟨ts', offset'', rfl, hts'⟩ := h' offset'
  refine ⟨ts ++ ts', offset'', List.map_append, ?_⟩
  rw [hts, hts', List.map_append, List.append_assoc]

theorem Gives.blank {c : Char} (hc : isBlank c = true) (s : List Char) : Gives (c :: s) [] s :=
  fun offset => ⟨[], offset + c.utf8Size, rfl, items_blank hc⟩

theorem lexeme?_blank {c : Char} (hc : isBlank c = true) (s : List Char) :
    lexeme? (c :: s) = none := by
  simp only [isBlank, Bool.or_eq_true, beq_iff_eq] at hc
  rcases hc with ((rfl | rfl) | rfl) | rfl <;> rfl

/-- The lexeme in front of a text is its next token. -/
theorem items_of_lexeme? {front : List Char} {k : Kind} (h : lexeme? s = some ⟨⟨front, rest⟩, k⟩)
    (offset : Nat) : (reading offset s).items =
      .ok ⟨k, .ofList front, offset⟩ :: (reading (offset + byteCount front) rest).items := by
  obtain ⟨c, s', rfl⟩ : ∃ c s', s = c :: s' := by
    have hcut := splits_of_lexeme? h
    cases s with
    | nil => exact absurd (List.append_eq_nil_iff.1 hcut.1).1 hcut.2
    | cons c s' => exact ⟨c, s', rfl⟩
  have hc : isBlank c = false := by
    rw [← Bool.not_eq_true]
    exact fun hblank => by simp [lexeme?_blank hblank] at h
  have hblank : (c :: s').dropWhile isBlank = c :: s' := by simp [hc]
  rw [items_lexeme hblank h]
  simp [hc, byteCount]

theorem Gives.lexeme {front : List Char} {k : Kind}
    (h : lexeme? s = some ⟨⟨front, rest⟩, k⟩) : Gives s [⟨k, .ofList front⟩] rest :=
  fun offset => ⟨[⟨k, .ofList front, offset⟩], _, rfl, items_of_lexeme? h offset⟩

/-- A text whose first lexeme is a word gives that word. -/
theorem Gives.word {w : Word} (h : lexeme? s = some ⟨⟨w.text.toList, rest⟩, w.kind⟩) :
    Gives s [w] rest := by
  have hgives := Gives.lexeme h
  rwa [String.ofList_toList] at hgives

/-- A text that is all words is scanned as these words and the end marker. -/
theorem Gives.tokens {text : String} (h : Gives text.toList ws []) :
    ∃ ts : List Token, ts.map Token.word = ws ∧
      scan text = .ok (ts ++ [.eof text.utf8ByteSize]) := by
  obtain ⟨ts, offset', hws, hitems⟩ := h 0
  have hscan : scan text = .ok (ts ++ [.eof offset']) := by
    rw [scan_eq_ok_iff, ofString, hitems, items_eof rfl]
    simp [byteCount]
  obtain ⟨body, hbody, -⟩ := tokens_of_scan hscan
  obtain ⟨rfl, hend⟩ := List.append_inj' hbody rfl
  exact ⟨ts, hws, by rw [hscan, hend]⟩

end Stream

end Token

end MapExpr
