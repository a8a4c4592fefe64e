import MapExpr.Proofs.Token.Tiling

/-!
# Spacing

Between two tokens any gap may stand. A lexeme in front of a blank is the longest one there, since
a lexeme that goes on over a blank is a literal, and a literal ends at its second quote.

* `Belongs.isBreak_eq_false`: only literals have blanks and quotes in them;
* `Belongs.eq_of_prefix`: no other lexeme stands in front of a literal;
* `Belongs.isLongest`: a lexeme in front of a blank;
* `Separates`: gaps that keep tokens apart;
* `munches_spaced`, `scan_spaced`: tokens with such gaps before them are scanned as the same words.
-/

namespace MapExpr.Token

variable {k : Kind} {s p front rest : List Char} {text : String} {ws : List String}
  {ts us : List Token}

/-! ## Characters of a lexeme -/

/-- The characters that stand in no lexeme but a literal. -/
def isBreak (c : Char) : Bool :=
  isBlank c || c == '\x27' || c == '"'

theorem isBreak_eq_false_of_isPart {c : Char} (h : Name.isPart c = true) : isBreak c = false := by
  rw [← Bool.not_eq_true]
  intro hbreak
  simp only [isBreak, isBlank, Bool.or_eq_true, beq_iff_eq] at hbreak
  rcases hbreak with (((((rfl | rfl) | rfl) | rfl) | rfl) | rfl) <;> cases h

theorem IsNumber.isPart (h : IsNumber s) : ∀ c ∈ s, Name.isPart c = true := by
  intro c hc
  obtain hdigit | rfl | rfl := h.isDigit_or c hc
  · exact isPart_of_isDigit hdigit
  · decide
  · decide

theorem IsName.isPart (h : IsName s) : ∀ c ∈ s, Name.isPart c = true := by
  cases h with
  | mk hc hs => exact List.forall_mem_cons.2 ⟨Name.isPart_of_isStart hc, hs⟩

/-- Only literals have blanks and quotes in them. -/
theorem Belongs.isBreak_eq_false (h : Belongs k s) (hk : k ≠ .literal) :
    ∀ c ∈ s, isBreak c = false := by
  cases h with
  | number h => exact fun c hc => isBreak_eq_false_of_isPart (h.isPart c hc)
  | literal _ => exact absurd rfl hk
  | keyword h _ _ | identifier h _ => exact fun c hc => isBreak_eq_false_of_isPart (h.isPart c hc)
  | mark hmark hspelling =>
    have hmarks : ∀ k ∈ Kind.marks, (Word.symbol k).text.toList.all (!isBreak ·) = true := by
      decide
    rw [eq_symbol_of_spelling? hspelling]
    simpa using hmarks k hmark

theorem Belongs.isNumber (h : Belongs .number s) : IsNumber s := by
  cases h with
  | number h => exact h
  | keyword _ _ hspelling | mark _ hspelling => cases hspelling

theorem Belongs.isLiteral (h : Belongs .literal s) : IsLiteral s := by
  cases h with
  | literal h => exact h
  | keyword _ _ hspelling | mark _ hspelling => cases hspelling

/-- A literal begins with a quote. -/
theorem IsLiteral.isBreak_head (h : IsLiteral s) : ∀ c ∈ s.head?, isBreak c = true := by
  cases h with
  | quoted hquote _ =>
    intro c hc
    obtain rfl := Option.some.inj hc
    rcases hquote with rfl | rfl <;> rfl

/-! ## Lexemes in front of blanks -/

theorem Belongs.ne_nil (h : Belongs k s) : s ≠ [] := by
  rintro rfl
  cases h.lexeme?_kind

/-- A lexeme in front of a literal is the literal. -/
theorem Belongs.eq_of_prefix (h : Belongs k front) (hp : IsLiteral p) (hfront : front <+: p) :
    front = p := by
  obtain ⟨d, s, rfl⟩ := List.exists_cons_of_ne_nil h.ne_nil
  obtain ⟨more, rfl⟩ := hfront
  have hquote := hp.isBreak_head d rfl
  by_cases hk : k = .literal
  · subst hk
    have hlong := hp.lexeme? []
    rw [List.append_nil, h.isLiteral.lexeme? more] at hlong
    exact congrArg (·.front) (Option.some.inj hlong)
  · rw [h.isBreak_eq_false hk d List.mem_cons_self] at hquote
    cases hquote

/-- What is found in front of a lexeme and a blank does not go on over the blank. -/
theorem Belongs.length_le {k' : Kind} (h : Belongs k front)
    (hrest : ∀ c ∈ rest.head?, isBlank c = true) (hp : p <+: front ++ rest) (h' : Belongs k' p) :
    p.length ≤ front.length := by
  by_contra hlt
  obtain ⟨more, rfl⟩ : front <+: p :=
    List.prefix_of_prefix_length_le (List.prefix_append front rest) hp (by omega)
  obtain ⟨c, more, rfl⟩ : ∃ c s, more = c :: s := by
    refine List.exists_cons_of_ne_nil fun hmore => hlt ?_
    rw [hmore, List.append_nil]
  have hblank : isBreak c = true := by
    obtain ⟨rest', hrest'⟩ := (List.prefix_append_right_inj front).1 hp
    rw [isBreak, hrest c (by simp [← hrest'])]
    rfl
  by_cases hk' : k' = .literal
  · subst hk'
    have hlength := congrArg List.length (h.eq_of_prefix h'.isLiteral (List.prefix_append front _))
    exact hlt (Nat.le_of_eq hlength.symm)
  · rw [h'.isBreak_eq_false hk' c (by simp)] at hblank
    cases hblank

/-- A lexeme is the longest one in front of a blank, and at the end of a text. -/
theorem Belongs.isLongest (h : Belongs k front) (hrest : ∀ c ∈ rest.head?, isBlank c = true) :
    IsLongest k front (front ++ rest) := by
  obtain ⟨l, hl, hle⟩ := h.exists_lexeme? rest
  have hlongest := isLongest_of_lexeme? hl
  have hlength := h.length_le hrest hlongest.begins hlongest.belongs
  have hfront : l.front = front :=
    (List.prefix_of_prefix_length_le hlongest.begins (List.prefix_append front rest)
      hlength).eq_of_length (Nat.le_antisymm hlength hle)
  rw [hfront] at hlongest
  rwa [hlongest.belongs.unique h] at hlongest

/-! ## Texts with other gaps -/

/-- The texts `ws` are gaps that keep the tokens `ts` apart. Before the first token and before the
end marker, which is the last one, they may be empty. -/
structure Separates (ws : List String) (ts : List Token) : Prop where
  length_eq : ws.length = ts.length
  isGap : ∀ w ∈ ws, IsGap w.toList
  ne_empty : ∀ w ∈ ws.tail.dropLast, w ≠ ""

/-- After a token there is a blank, or the text ends. -/
theorem Separates.isBlank_head {w : String} {t : Token} {stop : Nat}
    (h : Separates (w :: ws) (t :: (us ++ [eof stop]))) :
    ∀ c ∈ (spaced ws (us ++ [eof stop])).toList.head?, isBlank c = true := by
  cases ws with
  | nil => simp [spaced]
  | cons w' ws =>
    have hgap : IsGap w'.toList := h.isGap w' (by simp)
    cases us with
    | nil =>
      have hend : (spaced (w' :: ws) ([] ++ [eof stop])).toList = w'.toList := by
        cases ws <;> simp [spaced, eof]
      rw [hend]
      exact fun c hc => hgap c (List.mem_of_head? hc)
    | cons u us =>
      -- the end marker has a gap of its own, so this one is not the last
      have hmore : ws ≠ [] := by
        rintro rfl
        simpa using h.length_eq
      have hne : w' ≠ "" := h.ne_empty w' (by simp [List.dropLast_cons_of_ne_nil hmore])
      intro c hc
      rw [List.cons_append, spaced, String.toList_append,
        List.head?_append_of_ne_nil _ (by simpa using hne)] at hc
      exact hgap c (List.mem_of_head? hc)

theorem Separates.tail {w : String} {t : Token} (h : Separates (w :: ws) (t :: ts)) :
    Separates ws ts where
  length_eq := Nat.succ.inj h.length_eq
  isGap u hu := h.isGap u (List.mem_cons_of_mem w hu)
  ne_empty u hu := by
    rw [← List.tail_dropLast] at hu
    exact h.ne_empty u (List.mem_of_mem_tail hu)

/-- Lexemes with such gaps before them are cut as they were. -/
theorem munches_spaced {stop : Nat} (hus : ∀ t ∈ us, Belongs t.kind t.text.toList)
    (hws : Separates ws (us ++ [eof stop])) (offset : Nat) :
    ∃ ts, Munches offset (spaced ws (us ++ [eof stop])).toList (.ok ts) ∧
      ts.map Token.word = (us ++ [eof stop]).map Token.word := by
  induction us generalizing ws offset with
  | nil =>
    obtain ⟨w, rfl⟩ := List.length_eq_one_iff.1 hws.length_eq
    have hgap := hws.isGap w List.mem_cons_self
    refine ⟨[eof (offset + byteCount w.toList)], ?_, rfl⟩
    simpa [spaced, eof] using Munches.ending hgap
  | cons t us ih =>
    cases ws with
    | nil => cases hws.length_eq
    | cons w ws =>
      obtain ⟨ht, hus⟩ := List.forall_mem_cons.1 hus
      have hgap := hws.isGap w List.mem_cons_self
      have hlongest := ht.isLongest hws.isBlank_head
      obtain ⟨ts, hts, hwords⟩ :=
        ih hus hws.tail (offset + byteCount w.toList + byteCount t.text.toList)
      have hnext := Munches.lexeme hgap hlongest hts
      rw [String.ofList_toList] at hnext
      refine ⟨⟨t.kind, t.text, offset + byteCount w.toList⟩ :: ts, ?_, ?_⟩
      · rwa [List.cons_append, spaced, String.toList_append, String.toList_append]
      · exact congrArg (t.word :: ·) hwords

/-- The words of a text are those of every text that has other gaps between them. -/
theorem scan_spaced (h : scan text = .ok ts) (hws : Separates ws ts) :
    ∃ us, scan (spaced ws ts) = .ok us ∧ us.map Token.word = ts.map Token.word := by
  have hlexeme : ∀ {s l}, lexeme? s = some l →
      Belongs l.kind (String.ofList l.front).toList := by
    intro s l hl
    rw [String.toList_ofList]
    exact belongs_of_lexeme? hl
  obtain ⟨body, rfl, hbody⟩ := forall_word_of_scan (P := fun w => Belongs w.kind w.text.toList)
    hlexeme h
  obtain ⟨us, hus, hwords⟩ := munches_spaced hbody hws 0
  exact ⟨us, scan_of_munches hus, hwords⟩

end MapExpr.Token
