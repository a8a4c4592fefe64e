import MapExpr.Proofs.Expr.WellFormed
import MapExpr.Proofs.Grammar.Basic
import MapExpr.Proofs.Number.Numeral
import MapExpr.Proofs.Token.Classes
import MapExpr.Token.Stream

/-!
# Items of a stream

What the items of a text are. A text is scanned if and only if its items are tokens, and then the
last of them is the end marker, at the length of the text.

* `Stream.items_eof`, `Stream.items_lexeme`, `Stream.items_blank`: the items of a text by its front;
* `Word.IsGenuine`, `Word.IsFinite`: what is known of a word by its kind, and a number that is
  read as a finite one;
* `forall_word_of_scan`, `tokens_of_scan`: the tokens of a text.
-/

namespace MapExpr

/-! ## Bytes -/

theorem Token.byteCount_append (s t : List Char) :
    byteCount (s ++ t) = byteCount s + byteCount t := by
  simp [byteCount]

theorem Token.utf8ByteSize_ofList (s : List Char) :
    (String.ofList s).utf8ByteSize = byteCount s := by
  induction s with
  | nil => rfl
  | cons c s ih =>
    rw [← List.singleton_append, String.ofList_append, String.utf8ByteSize_append, ih,
      byteCount_append]
    simp [byteCount]

theorem Token.byteCount_toList (text : String) : byteCount text.toList = text.utf8ByteSize := by
  rw [← utf8ByteSize_ofList, String.ofList_toList]

namespace Token.Stream

theorem items_of_next? {s s' : Stream} {item : Except ParseError Token}
    (h : s.next? = some (item, s')) : s.items = item :: s'.items := by
  rw [items]
  split <;> simp_all

@[simp] theorem items_exhausted : exhausted.items = [] := by
  rw [items]
  rfl

variable {offset : Nat} {s s' : List Char} {c : Char} {l : Lexeme}

/-- A text of blanks has no more than its end marker. -/
theorem items_eof (h : s.dropWhile isBlank = []) :
    (reading offset s).items = [.ok (.eof (offset + byteCount s))] := by
  have hs : s.takeWhile isBlank = s := by
    rw [← List.append_nil (s.takeWhile isBlank), ← h, List.takeWhile_append_dropWhile]
  have hnext : (reading offset s).next? = some (.ok (.eof (offset + byteCount s)), exhausted) := by
    simp only [next?, h, hs]
  rw [items_of_next? hnext, items_exhausted]

/-- A lexeme after blanks is the next token. -/
theorem items_lexeme (hs : s.dropWhile isBlank = c :: s') (h : lexeme? (c :: s') = some l) :
    (reading offset s).items =
      .ok ⟨l.kind, .ofList l.front, offset + byteCount (s.takeWhile isBlank)⟩ ::
        (reading (offset + byteCount (s.takeWhile isBlank) + byteCount l.front) l.rest).items := by
  apply items_of_next?
  simp only [next?, hs, h]

/-- Where there is no lexeme after blanks, the fault is the last item. -/
theorem items_fault (hs : s.dropWhile isBlank = c :: s') (h : lexeme? (c :: s') = none) :
    (reading offset s).items =
      [.error (fault (offset + byteCount (s.takeWhile isBlank)) c)] := by
  have hnext : (reading offset s).next? =
      some (.error (fault (offset + byteCount (s.takeWhile isBlank)) c), exhausted) := by
    simp only [next?, hs, h]
  rw [items_of_next? hnext, items_exhausted]

/-- A blank in front is passed over. -/
theorem items_blank (hc : isBlank c = true) :
    (reading offset (c :: s)).items = (reading (offset + c.utf8Size) s).items := by
  have hbytes : offset + byteCount (c :: s.takeWhile isBlank) =
      offset + c.utf8Size + byteCount (s.takeWhile isBlank) := by
    simp only [byteCount, List.map_cons, List.sum_cons]
    omega
  have hnext : (reading offset (c :: s)).next? = (reading (offset + c.utf8Size) s).next? := by
    simp only [next?, List.takeWhile_cons, List.dropWhile_cons, hc, ↓reduceIte, hbytes]
  rw [items, items, hnext]

end Token.Stream

/-! ## Words of a text -/

/-- A name is free, the contents of a literal lack a quote, a number is read as a decimal, and a
text ends only once. -/
def Word.IsGenuine (w : Word) : Prop :=
  match w.kind with
  | .number => (Decimal.ofText? w.text).isSome = true
  | .identifier => Name.isFree w.text = true
  | .literal => Constant.isWellFormed (.literal (Parse.unquoted w.text)) = true
  | .eof => False
  | _ => True

/-- A word that, if it is a number, is read as a finite one. -/
def Word.IsFinite (w : Word) : Prop :=
  ∀ d, w.kind = .number → Decimal.ofText? w.text = some d → (Binary64.ofDecimal d).isFinite = true

@[simp] theorem Word.isGenuine_identifier (x : String) :
    IsGenuine ⟨.identifier, x⟩ ↔ Name.isFree x = true := .rfl

@[simp] theorem Word.isGenuine_literal (x : String) :
    IsGenuine ⟨.literal, x⟩ ↔ Constant.isWellFormed (.literal (Parse.unquoted x)) = true := .rfl

namespace Token

theorem IsName.isGenuine {s : List Char} (h : IsName s) :
    Word.IsGenuine ⟨.ofName (.ofList s), .ofList s⟩ := by
  cases h with
  | @mk c s hc hs =>
    simp only [Word.IsGenuine, Kind.ofName]
    cases hk : Kind.keyword? (.ofList (c :: s)) with
    | none =>
      have hall : s.all Name.isPart = true := List.all_eq_true.2 hs
      simp only [Option.getD_none, Name.isFree, String.toList_ofList, hc, hall, hk,
        Option.isNone_none, Bool.and_self]
    | some k =>
      have hspelling := Kind.spelling?_of_keyword? hk
      cases k <;> simp_all [Kind.spelling?]

theorem unquoted_between (quote : Char) (contents : List Char) :
    Parse.unquoted (.ofList (quote :: contents ++ [quote])) = .ofList contents := by
  simp [Parse.unquoted]

theorem IsLiteral.isGenuine {s : List Char} (h : IsLiteral s) :
    Word.IsGenuine ⟨.literal, .ofList s⟩ := by
  cases h with
  | @quoted quote contents hquote hmem =>
    rw [Word.isGenuine_literal, unquoted_between]
    rcases hquote with rfl | rfl <;> simp [Constant.isWellFormed, hmem]

theorem isGenuine_mark {k : Kind} (hk : k ∈ Kind.marks) (text : String) :
    Word.IsGenuine ⟨k, text⟩ := by
  cases k <;> trivial

theorem isGenuine_lexeme {s : List Char} {l : Lexeme} (h : lexeme? s = some l) :
    Word.IsGenuine ⟨l.kind, .ofList l.front⟩ := by
  simp only [lexeme?, Option.orElse_eq_orElse, Option.orElse_eq_or, Option.or_eq_some_iff,
    Option.map_eq_some_iff] at h
  rcases h with ⟨c, hc, rfl⟩ | ⟨-, ⟨c, hc, rfl⟩ | ⟨-, ⟨c, hc, rfl⟩ | ⟨-, h⟩⟩⟩
  · exact isSome_ofText? hc
  · exact (isLiteral_of_literal? hc).isGenuine
  · exact (isName_of_name? hc).isGenuine
  · obtain ⟨k, hk, h⟩ := List.exists_of_findSome?_eq_some h
    obtain ⟨c, -, rfl⟩ := Option.map_eq_some_iff.1 h
    exact isGenuine_mark hk _

/-! ## The tokens of a text -/

/-- A text is scanned if and only if all its items are tokens. -/
theorem scan_eq_ok_iff {text : String} {ts : List Token} :
    scan text = .ok ts ↔ (Stream.ofString text).items = ts.map .ok := by
  have hmapM : ∀ (items : List (Except ParseError Token)) (ts : List Token),
      items.mapM id = .ok ts ↔ items = ts.map .ok := by
    intro items
    induction items with
    | nil =>
      intro ts
      cases ts <;> simp [pure, Except.pure]
    | cons item items ih =>
      intro ts
      rw [List.mapM_cons]
      cases item with
      | error e => cases ts <;> simp [bind, Except.bind]
      | ok t =>
        simp only [id, bind, Except.bind]
        cases hrest : items.mapM id with
        | error e =>
          cases ts with
          | nil => simp
          | cons t' ts => simp [← ih ts, hrest]
        | ok us =>
          rw [(ih us).1 hrest]
          cases ts with
          | nil => simp [pure, Except.pure]
          | cons t' ts =>
            simp [pure, Except.pure, List.map_inj_right fun _ _ h => Except.ok.inj h]
  exact hmapM _ _

/-- What is left of a text is scanned as words, of which what holds of every lexeme is true, and the
end marker. -/
theorem Stream.tokens_of_items {P : Word → Prop}
    (hP : ∀ {s l}, lexeme? s = some l → P ⟨l.kind, .ofList l.front⟩) {ts : List Token}
    {offset : Nat} {s : List Char} (h : (reading offset s).items = ts.map .ok) :
    ∃ body, ts = body ++ [.eof (offset + byteCount s)] ∧ ∀ t ∈ body, P t.word := by
  induction ts generalizing offset s with
  | nil =>
    exfalso
    cases hs : s.dropWhile isBlank with
    | nil => simp [items_eof hs] at h
    | cons c s' =>
      cases hl : lexeme? (c :: s') with
      | none =>
        simp [items_fault hs hl] at h
      | some l => simp [items_lexeme hs hl] at h
  | cons t ts ih =>
    cases hs : s.dropWhile isBlank with
    | nil =>
      simp only [items_eof hs, List.map_cons, List.cons.injEq, Except.ok.injEq] at h
      obtain ⟨rfl, hts⟩ := h
      exact ⟨[], by simpa using hts.symm, by simp⟩
    | cons c s' =>
      cases hl : lexeme? (c :: s') with
      | none =>
        simp [items_fault hs hl] at h
      | some l =>
        simp only [items_lexeme hs hl, List.map_cons, List.cons.injEq, Except.ok.injEq] at h
        obtain ⟨rfl, hts⟩ := h
        obtain ⟨body, rfl, hbody⟩ := ih hts
        have hcut := (splits_of_lexeme? hl).1
        have hbytes : byteCount s =
            byteCount (s.takeWhile isBlank) + (byteCount l.front + byteCount l.rest) := by
          rw [← byteCount_append l.front, hcut, ← hs, ← byteCount_append,
            List.takeWhile_append_dropWhile]
        refine ⟨⟨l.kind, .ofList l.front, offset + byteCount (s.takeWhile isBlank)⟩ :: body, ?_,
          List.forall_mem_cons.2 ⟨hP hl, hbody⟩⟩
        rw [List.cons_append, hbytes]
        simp only [Nat.add_assoc]

/-- A text is scanned as words, of which what holds of every lexeme is true, and the end marker, at
the length of the text. -/
theorem forall_word_of_scan {P : Word → Prop}
    (hP : ∀ {s l}, lexeme? s = some l → P ⟨l.kind, .ofList l.front⟩) {text : String}
    {ts : List Token} (h : scan text = .ok ts) :
    ∃ body, ts = body ++ [.eof text.utf8ByteSize] ∧ ∀ t ∈ body, P t.word := by
  obtain ⟨body, hts, hbody⟩ := Stream.tokens_of_items hP (scan_eq_ok_iff.1 h)
  rw [byteCount_toList, Nat.zero_add] at hts
  exact ⟨body, hts, hbody⟩

theorem tokens_of_scan {text : String} {ts : List Token} (h : scan text = .ok ts) :
    ∃ body, ts = body ++ [.eof text.utf8ByteSize] ∧ ∀ t ∈ body, t.word.IsGenuine :=
  forall_word_of_scan isGenuine_lexeme h

end Token

/-- A genuine word does not end a text. -/
theorem Word.IsGenuine.kind_ne_eof {w : Word} (h : w.IsGenuine) : w.kind ≠ .eof := by
  intro hk
  simp only [Word.IsGenuine, hk] at h

end MapExpr
