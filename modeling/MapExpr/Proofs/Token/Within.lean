import MapExpr.Proofs.Token.Spacing

/-!
# A text within a text

A text of tokens gives the same words in front of a blank, a comma or a closing bracket, since no
lexeme but a literal goes on with one of these, and a literal ends at its second quote.

* `isStop`, `Stopped`: these characters, and the texts that begin with one or are empty;
* `Belongs.isStop_eq_false`, `IsLongest.append`: a lexeme does not go on over one of them;
* `Stream.gives_of_scan`: what a text gives in front of them;
* `Stream.Gives.items_append`, `Stream.Gives.exists_scan`: and where the rest of the longer text
  begins.
-/

namespace MapExpr.Token

variable {k : Kind} {s front rest : List Char} {c : Char} {text : String} {ts : List Token}

/-- The characters that go on with no lexeme but a literal. -/
def isStop (c : Char) : Bool :=
  isBlank c || c == ',' || c == ')' || c == ']'

/-- The text `rest` goes on with no lexeme before it, unless that is a literal. -/
def Stopped (rest : List Char) : Prop :=
  ∀ c ∈ rest.head?, isStop c = true

@[simp] theorem stopped_nil : Stopped [] := by
  simp [Stopped]

@[simp] theorem stopped_cons (c : Char) (s : List Char) :
    Stopped (c :: s) ↔ isStop c = true := by
  simp [Stopped]

theorem isStop_eq_false_of_isPart (h : Name.isPart c = true) : isStop c = false := by
  rw [← Bool.not_eq_true]
  intro hstop
  simp only [isStop, isBlank, Bool.or_eq_true, beq_iff_eq] at hstop
  rcases hstop with ((((((rfl | rfl) | rfl) | rfl) | rfl) | rfl) | rfl) <;> cases h

/-- After its first character, only a literal has such characters in it. -/
theorem Belongs.isStop_eq_false (h : Belongs k (c :: s)) (hk : k ≠ .literal) :
    ∀ d ∈ s, isStop d = false := by
  have hparts : (∀ d ∈ c :: s, Name.isPart d = true) → ∀ d ∈ s, isStop d = false :=
    fun h d hd => isStop_eq_false_of_isPart (h d (List.mem_cons_of_mem c hd))
  cases h with
  | number h => exact hparts h.isPart
  | literal _ => exact absurd rfl hk
  | keyword h _ _ | identifier h _ => exact hparts h.isPart
  | mark hmark hspelling =>
    have hmarks : ∀ k ∈ Kind.marks, (Word.symbol k).text.toList.tail.all (!isStop ·) = true := by
      decide
    have htail := hmarks k hmark
    rw [← eq_symbol_of_spelling? hspelling] at htail
    simpa using htail

/-- The longest lexeme stays the longest one when the text goes on with such a character. -/
theorem IsLongest.append (h : IsLongest k front (front ++ s)) (hrest : Stopped rest) :
    IsLongest k front (front ++ (s ++ rest)) where
  begins := List.prefix_append front _
  belongs := h.belongs
  longest {k' p} hp hbelongs := by
    rw [← List.append_assoc] at hp
    by_cases hle : p.length ≤ (front ++ s).length
    · exact h.longest (List.prefix_of_prefix_length_le hp (List.prefix_append _ rest) hle) hbelongs
    exfalso
    obtain ⟨more, rfl⟩ : front ++ s <+: p :=
      List.prefix_of_prefix_length_le (List.prefix_append _ rest) hp (Nat.le_of_not_le hle)
    by_cases hk' : k' = .literal
    · subst hk'
      have hfront := h.belongs.eq_of_prefix hbelongs.isLiteral ⟨s ++ more, by simp⟩
      have hlength := congrArg List.length hfront
      simp only [List.length_append] at hlength hle
      omega
    · obtain ⟨c, more, rfl⟩ : ∃ c s, more = c :: s := by
        refine List.exists_cons_of_ne_nil fun hmore => hle ?_
        rw [hmore, List.append_nil]
      obtain ⟨rest', hrest'⟩ := (List.prefix_append_right_inj _).1 hp
      have hstop := hrest c (by simp [← hrest'])
      obtain ⟨d, front, rfl⟩ := List.exists_cons_of_ne_nil h.belongs.ne_nil
      rw [hbelongs.isStop_eq_false hk' c (by simp)] at hstop
      cases hstop

/-- A number in front of such a character is its first lexeme. -/
theorem IsNumber.lexeme? (h : IsNumber s) (hrest : Stopped rest) :
    lexeme? (s ++ rest) = some ⟨⟨s, rest⟩, .number⟩ := by
  obtain ⟨⟨front, more⟩, hfound, hle⟩ := h.exists_lexeme? []
  obtain ⟨hcut, -⟩ := splits_of_lexeme? hfound
  -- the lexeme is the whole text
  obtain ⟨rfl, rfl⟩ : front = s ∧ more = [] := by
    have hlength := congrArg List.length hcut
    simp only [List.length_append, List.length_nil] at hlength hle
    obtain rfl : more = [] := List.eq_nil_of_length_eq_zero (by omega)
    simpa using hcut
  have hlongest := isLongest_of_lexeme? hfound
  exact lexeme?_eq_some_iff.2 ⟨hlongest.append hrest, rfl⟩

/-! ## What a text gives -/

namespace Stream

theorem Gives.gap {gap : List Char} (h : IsGap gap) (s : List Char) : Gives (gap ++ s) [] s := by
  induction gap with
  | nil => exact .refl s
  | cons c gap ih =>
    obtain ⟨hc, hgap⟩ := List.forall_mem_cons.1 h
    exact (Gives.blank hc _).trans (ih hgap)

theorem ne_nil_of_munches {offset : Nat} (h : Munches offset s (.ok ts)) : ts ≠ [] := by
  generalize hresult : Except.ok ts = result at h
  cases h with
  | ending =>
    obtain rfl := Except.ok.inj hresult
    exact List.cons_ne_nil _ _
  | @lexeme _ _ _ _ _ result =>
    cases result with
    | error e => cases hresult
    | ok us =>
      obtain rfl := Except.ok.inj hresult
      exact List.cons_ne_nil _ _
  | openQuote | foreign => cases hresult

/-- What is cut into lexemes gives their words in front of a blank, a comma or a closing bracket. -/
theorem gives_of_munches {offset : Nat} (h : Munches offset s (.ok ts)) (hrest : Stopped rest) :
    Gives (s ++ rest) (ts.dropLast.map Token.word) rest := by
  generalize hresult : Except.ok ts = result at h
  induction h generalizing ts with
  | ending hblanks =>
    obtain rfl := Except.ok.inj hresult
    exact Gives.gap hblanks rest
  | @lexeme offset blanks front s k result hblanks hlongest hs ih =>
    cases result with
    | error e => cases hresult
    | ok us =>
      obtain rfl := Except.ok.inj hresult
      have hfound : lexeme? (front ++ (s ++ rest)) = some ⟨⟨front, s ++ rest⟩, k⟩ :=
        lexeme?_eq_some_iff.2 ⟨hlongest.append hrest, rfl⟩
      rw [List.append_assoc, List.append_assoc, List.dropLast_cons_of_ne_nil (ne_nil_of_munches hs)]
      exact (Gives.gap hblanks _).trans ((Gives.lexeme hfound).trans (ih rfl))
  | openQuote | foreign => cases hresult

theorem gives_of_scan (h : scan text = .ok ts) (hrest : Stopped rest) :
    Gives (text.toList ++ rest) (ts.dropLast.map Token.word) rest := by
  have hmunches := munches_scan text
  rw [h] at hmunches
  exact gives_of_munches hmunches hrest

/-- In a text that is all words, the rest after some words begins where their text ends. -/
theorem Gives.items_append {ws us : List Word} (h : Gives (front ++ rest) ws rest)
    (hrest : Gives rest us []) (offset : Nat) : ∃ ts : List Token, ts.map Token.word = ws ∧
      (reading offset (front ++ rest)).items =
        ts.map .ok ++ (reading (offset + byteCount front) rest).items := by
  obtain ⟨ts, offset', hts, hitems⟩ := h offset
  obtain ⟨ts', stop, -, hrest⟩ := hrest offset'
  -- the end marker is where the rest ends, and where the whole text ends
  have hend : (reading offset' rest).items = (ts' ++ [eof stop]).map .ok := by
    rw [hrest, items_eof rfl]
    simp [byteCount]
  have hwhole : (reading offset (front ++ rest)).items = (ts ++ ts' ++ [eof stop]).map .ok := by
    simp only [hitems, hend, List.append_assoc, List.map_append]
  obtain ⟨body, hbody, -⟩ := tokens_of_items isGenuine_lexeme hend
  obtain ⟨body', hbody', -⟩ := tokens_of_items isGenuine_lexeme hwhole
  have hstop : stop = offset' + byteCount rest := by
    simpa [eof] using (List.append_inj' hbody rfl).2
  have hstop' : stop = offset + (byteCount front + byteCount rest) := by
    simpa [eof, byteCount_append] using (List.append_inj' hbody' rfl).2
  obtain rfl : offset' = offset + byteCount front := by omega
  exact ⟨ts, hts, hitems⟩

/-- A lexeme between words is a token where the text before it ends. -/
theorem Gives.exists_scan {more : List Char} {ws us : List Word}
    (htext : text.toList = front ++ rest) (h : Gives (front ++ rest) ws rest)
    (hl : lexeme? rest = some ⟨⟨s, more⟩, k⟩) (hmore : Gives more us []) :
    ∃ ts us : List Token, ts.map Token.word = ws ∧
      scan text = .ok (ts ++ ⟨k, .ofList s, byteCount front⟩ :: us) := by
  obtain ⟨ts, hts, hitems⟩ := h.items_append ((Gives.lexeme hl).trans hmore) 0
  rw [Nat.zero_add] at hitems
  obtain ⟨us, stop, -, hus⟩ := hmore (byteCount front + byteCount s)
  refine ⟨ts, us ++ [.eof stop], hts, ?_⟩
  rw [scan_eq_ok_iff, ofString, htext, hitems, items_of_lexeme? hl, hus, items_eof rfl]
  simp [byteCount]

end Stream

end MapExpr.Token
