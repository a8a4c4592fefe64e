import MapExpr.Proofs.Token.Starts
import MapExpr.Proofs.Token.Within

/-!
# Where a scan stops

A scan has a fault at a character with which no lexeme begins. The tokens before it do not hang on
what follows the character: a lexeme that went on over it would, up to it, be a lexeme already.

* `lexeme?_foreign_eq_none_iff`, `lexeme?_quote_eq_none_iff`: the texts after a character with
  which no lexeme begins;
* `IsLongest.splice`: the longest lexeme before such a character;
* `Breaks`, `exists_breaks_of_scan`: a text up to the fault, and the tokens before it;
* `Breaks.scan_before`, `Breaks.scan_eq_error`: the text up to the fault alone, and with the
  character and another text after it, and `lexeme?_eq_none_of_scan`: when that has the same fault.
-/

namespace MapExpr.Token

variable {k : Kind} {s p front rest after : List Char} {c : Char} {text : String} {e : ParseError}

/-! ## Texts that begin with no lexeme -/

/-- Every character of a number is a lexeme of its own. -/
theorem IsNumber.exists_belongs (h : IsNumber s) : ∀ c ∈ s, ∃ k, Belongs k [c] := by
  intro c hc
  obtain hdigit | rfl | rfl := h.isDigit_or c hc
  · have hdigits : IsDigits [c] := ⟨List.cons_ne_nil c [], List.forall_mem_singleton.2 hdigit⟩
    exact ⟨.number, .number (.positive (.whole hdigits))⟩
  · exact ⟨.dot, .mark (by decide) rfl⟩
  · exact ⟨.minus, .mark (by decide) rfl⟩

/-- The first character of a lexeme is a lexeme of its own, but for quotes and the mark `!=`. -/
theorem Belongs.exists_head (h : Belongs k (c :: s)) (hsingle : c ≠ '\x27') (hdouble : c ≠ '"') :
    (∃ k', Belongs k' [c]) ∨ c = '!' ∧ s = ['='] := by
  have hname : IsName (c :: s) → ∃ k', Belongs k' [c] := by
    rintro ⟨hc, -⟩
    exact ⟨_, (IsName.mk hc (List.forall_mem_nil _)).belongs⟩
  cases h with
  | number h => exact .inl (h.exists_belongs c List.mem_cons_self)
  | literal h =>
    cases h with
    | quoted hquote _ => exact absurd hquote (not_or.2 ⟨hsingle, hdouble⟩)
  | keyword h _ _ | identifier h _ => exact .inl (hname h)
  | mark hk hspelling =>
    have hmarks : ∀ k ∈ Kind.marks, (Word.symbol k).text.toList = ['!', '='] ∨
        ∃ k' ∈ Kind.marks, k'.spelling? = some (.ofList ((Word.symbol k).text.toList.take 1)) := by
      decide
    have hcases := hmarks k hk
    rw [← eq_symbol_of_spelling? hspelling] at hcases
    rcases hcases with hequal | ⟨k', hk', hspelling'⟩
    · exact .inr (List.cons.inj hequal)
    · exact .inl ⟨k', .mark hk' hspelling'⟩

/-- If a character that is no quote begins no lexeme, it begins none whatever follows it, unless it
is the first one of the mark `!=`. -/
theorem lexeme?_foreign_eq_none_iff (hsingle : c ≠ '\x27') (hdouble : c ≠ '"')
    (h : lexeme? (c :: after) = none) (s : List Char) :
    lexeme? (c :: s) = none ↔ ¬ (c = '!' ∧ s.head? = some '=') := by
  constructor
  · rintro hnone ⟨rfl, hs⟩
    obtain ⟨s, rfl⟩ := List.head?_eq_some_iff.1 hs
    cases hnone.symm.trans (lexeme?_double (k := .notEqual) (by decide) s)
  · intro hequal
    refine lexeme?_eq_none_iff.2 fun k p hp hbelongs => ?_
    obtain ⟨d, p, rfl⟩ := List.exists_cons_of_ne_nil hbelongs.ne_nil
    obtain ⟨rfl, htail⟩ := List.cons_prefix_cons.1 hp
    rcases hbelongs.exists_head hsingle hdouble with ⟨k', hk'⟩ | ⟨hc, rfl⟩
    · exact lexeme?_eq_none_iff.1 h k' [d] (by simp) hk'
    · obtain ⟨rest, rfl⟩ := htail
      exact hequal ⟨hc, rfl⟩

/-- A quote begins no lexeme if it does not come again. -/
theorem lexeme?_quote_eq_none_iff (hquote : c = '\x27' ∨ c = '"') (s : List Char) :
    lexeme? (c :: s) = none ↔ c ∉ s := by
  constructor
  · intro hnone hmem
    obtain ⟨contents, rest, rfl, hcontents⟩ := List.eq_append_cons_of_mem hmem
    refine lexeme?_eq_none_iff.1 hnone .literal (c :: contents ++ [c]) ⟨rest, by simp⟩ ?_
    exact .literal (.quoted hquote hcontents)
  · intro hmem
    refine lexeme?_eq_none_iff.2 fun k p hp hbelongs => ?_
    obtain ⟨d, p, rfl⟩ := List.exists_cons_of_ne_nil hbelongs.ne_nil
    obtain ⟨rfl, htail⟩ := List.cons_prefix_cons.1 hp
    by_cases hk : k = .literal
    · subst hk
      generalize hlexeme : d :: p = q at hbelongs
      cases hbelongs.isLiteral with
      | quoted hquote hcontents =>
        obtain ⟨rfl, rfl⟩ := List.cons.inj hlexeme
        exact hmem (htail.subset (List.mem_append_right _ (List.mem_singleton_self d)))
    · have hbreak := hbelongs.isBreak_eq_false hk d List.mem_cons_self
      rcases hquote with rfl | rfl <;> cases hbreak

/-! ## The lexemes before -/

theorem IsName.of_append {t : List Char} (h : IsName (s ++ t)) (hs : s ≠ []) : IsName s := by
  obtain ⟨c, s, rfl⟩ := List.exists_cons_of_ne_nil hs
  cases h with
  | mk hc hparts => exact .mk hc fun d hd => hparts d (List.mem_append_left t hd)

/-- The longest lexeme before a character that begins none stays the longest one, whatever follows
that character, and also when nothing follows. -/
theorem IsLongest.splice (h : IsLongest k front (front ++ (s ++ c :: after)))
    (hnone : lexeme? (c :: after) = none) (hrest : ∀ d ∈ rest.head?, d = c) :
    IsLongest k front (front ++ (s ++ rest)) where
  begins := List.prefix_append front _
  belongs := h.belongs
  longest {k' p} hp hbelongs := by
    have hwhole : front ++ (s ++ [c]) <+: front ++ (s ++ c :: after) :=
      ⟨after, by simp⟩
    have hpart : p <+: front ++ (s ++ [c]) ∨ front ++ (s ++ [c]) <+: p := by
      cases rest with
      | nil =>
        refine .inl (hp.trans ?_)
        exact ⟨[c], by simp⟩
      | cons d rest =>
        obtain rfl := hrest d rfl
        refine List.prefix_or_prefix_of_prefix hp ⟨rest, by simp⟩
    rcases hpart with hshort | ⟨more, rfl⟩
    · exact h.longest (hshort.trans hwhole) hbelongs
    · -- up to the character the lexeme would be one already, and longer than the longest
      exfalso
      have hlength : front.length < (front ++ (s ++ [c])).length := by simp
      have hnot : ∀ {k'}, ¬ Belongs k' (front ++ (s ++ [c])) := by
        intro k' hk'
        rcases h.longest hwhole hk' with hlt | ⟨heq, -⟩
        · omega
        · rw [heq] at hlength
          omega
      have hname : ¬ IsName (front ++ (s ++ [c]) ++ more) := fun hname =>
        hnot (hname.of_append (List.append_ne_nil_of_left_ne_nil h.belongs.ne_nil _)).belongs
      cases hbelongs with
      | number hnumber =>
        obtain ⟨k', hk'⟩ := hnumber.exists_belongs c (by simp)
        exact lexeme?_eq_none_iff.1 hnone k' [c] (by simp) hk'
      | literal hliteral =>
        have hfront := h.belongs.eq_of_prefix hliteral ⟨s ++ [c] ++ more, by simp⟩
        have hcut := congrArg List.length hfront
        simp only [List.length_append, List.length_singleton] at hcut
        omega
      | keyword hkeyword _ _ => exact hname hkeyword
      | identifier hidentifier _ => exact hname hidentifier
      | mark hk hspelling =>
        have hmarks : ∀ k ∈ Kind.marks, (Word.symbol k).text.toList.length ≤ 2 := by decide
        have hle := hmarks _ hk
        rw [← eq_symbol_of_spelling? hspelling] at hle
        have hpos := List.length_pos_iff.2 h.belongs.ne_nil
        simp only [List.length_append, List.length_singleton] at hle
        obtain rfl : more = [] := List.eq_nil_of_length_eq_zero (by omega)
        rw [List.append_nil] at hspelling
        exact hnot (.mark hk hspelling)

/-! ## The text before a fault -/

theorem Stream.items_gap {gap : List Char} (h : IsGap gap) (offset : Nat) (s : List Char) :
    (reading offset (gap ++ s)).items = (reading (offset + byteCount gap) s).items := by
  induction gap generalizing offset with
  | nil => rfl
  | cons c gap ih =>
    obtain ⟨hc, hgap⟩ := List.forall_mem_cons.1 h
    rw [List.cons_append, items_blank hc, ih hgap]
    simp [byteCount, Nat.add_assoc]

/-- From byte `offset` on, the text `before` is the tokens `ts`, also when the character `c` and any
text follow it. With `c` and the text `after` it no lexeme begins. -/
structure Breaks (offset : Nat) (before : List Char) (c : Char) (after : List Char)
    (ts : List Token) : Prop where
  isBlank_eq_false : isBlank c = false
  lexeme?_eq_none : lexeme? (c :: after) = none
  items_append : ∀ rest : List Char, (∀ d ∈ rest.head?, d = c) →
    (Stream.reading offset (before ++ rest)).items =
      ts.map .ok ++ (Stream.reading (offset + byteCount before) rest).items

variable {offset : Nat} {before : List Char} {ts : List Token}

/-- Only blanks stand before the character. -/
theorem breaks_gap {gap : List Char} (hgap : IsGap gap) (hc : isBlank c = false)
    (hnone : lexeme? (c :: after) = none) : Breaks offset gap c after [] where
  isBlank_eq_false := hc
  lexeme?_eq_none := hnone
  items_append _ _ := Stream.items_gap hgap offset _

/-- A lexeme stands before the character. -/
theorem Breaks.lexeme {gap : List Char} (hgap : IsGap gap)
    (hlongest : IsLongest k front (front ++ (before ++ c :: after)))
    (h : Breaks (offset + byteCount gap + byteCount front) before c after ts) :
    Breaks offset (gap ++ (front ++ before)) c after
      (⟨k, .ofList front, offset + byteCount gap⟩ :: ts) where
  isBlank_eq_false := h.isBlank_eq_false
  lexeme?_eq_none := h.lexeme?_eq_none
  items_append rest hrest := by
    have hfound : lexeme? (front ++ (before ++ rest)) = some ⟨⟨front, before ++ rest⟩, k⟩ :=
      lexeme?_eq_some_iff.2 ⟨hlongest.splice h.lexeme?_eq_none hrest, rfl⟩
    have hplace : offset + byteCount (gap ++ (front ++ before)) =
        offset + byteCount gap + byteCount front + byteCount before := by
      simp only [byteCount_append, Nat.add_assoc]
    rw [List.append_assoc, Stream.items_gap hgap, List.append_assoc, Stream.items_of_lexeme? hfound,
      h.items_append rest hrest, hplace]
    rfl

/-- A text that has a fault breaks at the character of the fault. -/
theorem Munches.exists_breaks (h : Munches offset s (.error e)) :
    ∃ before c after ts, s = before ++ c :: after ∧ e = fault (offset + byteCount before) c ∧
      Breaks offset before c after ts := by
  generalize hresult : Except.error e = result at h
  induction h with
  | ending => cases hresult
  | @lexeme offset gap front rest k result hgap hlongest _ ih =>
    cases result with
    | ok ts => cases hresult
    | error e' =>
      obtain rfl := Except.error.inj hresult
      obtain ⟨before, c, after, ts, rfl, rfl, hbreaks⟩ := ih rfl
      refine ⟨gap ++ (front ++ before), c, after, _, by simp, ?_, hbreaks.lexeme hgap hlongest⟩
      simp only [byteCount_append, Nat.add_assoc]
  | @openQuote offset gap rest c hgap hquote hnone =>
    obtain rfl := Except.error.inj hresult
    have hc : isBlank c = false := by rcases hquote with rfl | rfl <;> rfl
    refine ⟨gap, c, rest, [], rfl, ?_, breaks_gap hgap hc (lexeme?_eq_none_iff.2 hnone)⟩
    rw [fault, if_pos hquote]
  | @foreign offset gap rest c hgap hc hsingle hdouble hnone =>
    obtain rfl := Except.error.inj hresult
    refine ⟨gap, c, rest, [], rfl, ?_, breaks_gap hgap hc (lexeme?_eq_none_iff.2 hnone)⟩
    rw [fault, if_neg (not_or.2 ⟨hsingle, hdouble⟩)]

/-! ## Scans that fail -/

@[simp] theorem offset_fault (offset : Nat) (c : Char) : (fault offset c).offset = offset := by
  unfold fault
  split <;> rfl

/-- A scan has the first fault among its items. -/
theorem scan_of_items_error {items : List (Except ParseError Token)}
    (h : (Stream.ofString text).items = ts.map .ok ++ .error e :: items) :
    scan text = .error e := by
  rw [scan, h]
  clear h
  induction ts with
  | nil => rfl
  | cons t ts ih =>
    rw [List.map_cons, List.cons_append, List.mapM_cons, ih]
    rfl

/-- A text that is not scanned breaks at the place of its fault. -/
theorem exists_breaks_of_scan (h : scan text = .error e) :
    ∃ (before : String) (c : Char) (after : String) (ts : List Token),
      text = before ++ (.singleton c ++ after) ∧ e = fault before.utf8ByteSize c ∧
        Breaks 0 before.toList c after.toList ts := by
  have hmunches := munches_scan text
  rw [h] at hmunches
  obtain ⟨before, c, after, ts, htext, he, hbreaks⟩ := hmunches.exists_breaks
  refine ⟨.ofList before, c, .ofList after, ts, ?_, ?_, by simpa using hbreaks⟩
  · rw [← String.toList_inj, htext]
    simp
  · rw [he, utf8ByteSize_ofList, Nat.zero_add]

namespace Breaks

variable {before after : String} (h : Breaks 0 before.toList c after.toList ts)

include h

/-- The text before the fault is scanned as the tokens before the fault. -/
theorem scan_before : scan before = .ok (ts ++ [eof before.utf8ByteSize]) := by
  have hitems := h.items_append [] (by simp)
  rw [List.append_nil, Stream.items_eof (s := []) rfl] at hitems
  rw [scan_eq_ok_iff, Stream.ofString, hitems, byteCount_toList]
  simp [byteCount]

/-- The items up to a fault. -/
theorem items_fault {x : String} (hx : lexeme? (c :: x.toList) = none) :
    (Stream.ofString (before ++ (.singleton c ++ x))).items =
      ts.map .ok ++ [.error (fault before.utf8ByteSize c)] := by
  have hitems := h.items_append (c :: x.toList) (by simp)
  have hblank : (c :: x.toList).dropWhile isBlank = c :: x.toList := by
    simp [h.isBlank_eq_false]
  rw [Stream.items_fault hblank hx] at hitems
  rw [Stream.ofString, String.toList_append, String.toList_append, String.toList_singleton,
    List.singleton_append, hitems, byteCount_toList]
  simp [h.isBlank_eq_false, byteCount]

theorem scan_eq_error {x : String} (hx : lexeme? (c :: x.toList) = none) :
    scan (before ++ (.singleton c ++ x)) = .error (fault before.utf8ByteSize c) :=
  scan_of_items_error (h.items_fault hx)

end Breaks

/-- Two texts with the same beginnings of the same size go on alike. -/
theorem eq_of_append_eq {s s' t t' : List Char} (h : s ++ t = s' ++ t')
    (hsize : byteCount s = byteCount s') : s = s' ∧ t = t' := by
  have hsame : ∀ {s s' : List Char}, s <+: s' → byteCount s = byteCount s' → s = s' := by
    rintro s _ ⟨more, rfl⟩ hsize
    rw [byteCount_append] at hsize
    by_cases hmore : more = []
    · rw [hmore, List.append_nil]
    · have := byteCount_pos hmore
      omega
  have hs : s = s' := by
    rcases List.prefix_or_prefix_of_prefix (List.prefix_append s t) (h ▸ List.prefix_append s' t')
      with hle | hle
    · exact hsame hle hsize
    · exact (hsame hle hsize.symm).symm
  subst hs
  exact ⟨rfl, List.append_cancel_left h⟩

/-- A scan that has a fault at a place finds no lexeme there. -/
theorem lexeme?_eq_none_of_scan {before x : String}
    (h : scan (before ++ (.singleton c ++ x)) = .error e)
    (hoffset : e.offset = before.utf8ByteSize) : lexeme? (c :: x.toList) = none := by
  obtain ⟨before', d, after, ts, htext, rfl, hbreaks⟩ := exists_breaks_of_scan h
  rw [offset_fault, ← byteCount_toList, ← byteCount_toList] at hoffset
  have hlist := congrArg String.toList htext
  simp only [String.toList_append, String.toList_singleton, List.singleton_append] at hlist
  rw [(eq_of_append_eq hlist hoffset.symm).2]
  exact hbreaks.lexeme?_eq_none

end MapExpr.Token
