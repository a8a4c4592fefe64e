import MapExpr.Proofs.Token.Longest
import Mathlib.Data.List.TakeWhile

/-!
# Maximal munch

A text is cut into longest lexemes with blanks between them, up to its end or to a place where no
lexeme begins.

* `Munches`: the tokens of a text that is cut so, or its fault;
* `Stream.munches_collect`, `Stream.collect_of_munches`: a stream reads what is left of a text so;
* `scan_eq_iff_munches`: the scanner does just that.
-/

namespace MapExpr.Token

/-- Blanks and nothing else. -/
def IsGap (s : List Char) : Prop :=
  ∀ c ∈ s, isBlank c = true

instance (s : List Char) : Decidable (IsGap s) :=
  decidable_of_iff (s.all isBlank = true) List.all_eq_true

/-- What a text that begins at byte `offset` is when it is cut into longest lexemes: its tokens and
the end marker, or the fault of the first place where no lexeme begins. -/
inductive Munches : Nat → List Char → Except ParseError (List Token) → Prop
  /-- Only blanks are left. -/
  | ending {offset : Nat} {blanks : List Char} : IsGap blanks →
      Munches offset blanks (.ok [.eof (offset + byteCount blanks)])
  /-- The longest lexeme after the blanks is the next token. -/
  | lexeme {offset : Nat} {blanks front rest : List Char} {k : Kind}
      {result : Except ParseError (List Token)} : IsGap blanks →
      IsLongest k front (front ++ rest) →
      Munches (offset + byteCount blanks + byteCount front) rest result →
      Munches offset (blanks ++ (front ++ rest))
        (result.map (⟨k, .ofList front, offset + byteCount blanks⟩ :: ·))
  /-- A quote begins no lexeme. -/
  | openQuote {offset : Nat} {blanks rest : List Char} {c : Char} :
      IsGap blanks → c = '\x27' ∨ c = '"' →
      (∀ k p, p <+: c :: rest → ¬ Belongs k p) →
      Munches offset (blanks ++ c :: rest)
        (.error (.unterminatedLiteral (offset + byteCount blanks)))
  /-- A character that is neither a blank nor a quote begins no lexeme. -/
  | foreign {offset : Nat} {blanks rest : List Char} {c : Char} :
      IsGap blanks → isBlank c = false → c ≠ '\x27' → c ≠ '"' →
      (∀ k p, p <+: c :: rest → ¬ Belongs k p) →
      Munches offset (blanks ++ c :: rest) (.error (.unexpectedChar (offset + byteCount blanks) c))

variable {offset : Nat} {s s' blanks rest : List Char} {c : Char} {l : Lexeme}
  {result : Except ParseError (List Token)}

/-! ## Streams -/

namespace Stream

/-- The items of a stream up to its first fault. -/
def collect (s : Stream) : Except ParseError (List Token) :=
  s.items.mapM id

theorem collect_eof (h : s.dropWhile isBlank = []) :
    (reading offset s).collect = .ok [.eof (offset + byteCount s)] := by
  rw [collect, items_eof h]
  rfl

theorem collect_lexeme (hs : s.dropWhile isBlank = c :: s') (h : lexeme? (c :: s') = some l) :
    (reading offset s).collect =
      (reading (offset + byteCount (s.takeWhile isBlank) + byteCount l.front) l.rest).collect.map
        (⟨l.kind, .ofList l.front, offset + byteCount (s.takeWhile isBlank)⟩ :: ·) := by
  rw [collect, items_lexeme hs h, List.mapM_cons]
  rfl

theorem collect_fault (hs : s.dropWhile isBlank = c :: s') (h : lexeme? (c :: s') = none) :
    (reading offset s).collect = .error (fault (offset + byteCount (s.takeWhile isBlank)) c) := by
  rw [collect, items_fault hs h]
  rfl

/-- A text without a lexeme after blanks has the fault of its first character there. -/
theorem munches_fault (hblanks : IsGap blanks) (hc : isBlank c = false)
    (h : lexeme? (c :: rest) = none) :
    Munches offset (blanks ++ c :: rest) (.error (fault (offset + byteCount blanks) c)) := by
  have hnone := lexeme?_eq_none_iff.1 h
  unfold fault
  split
  · rename_i hquote
    exact .openQuote hblanks hquote hnone
  · rename_i hquote
    obtain ⟨hsingle, hdouble⟩ := not_or.1 hquote
    exact .foreign hblanks hc hsingle hdouble hnone

/-- What a stream has still to read is cut as the stream reads it. -/
theorem munches_collect (offset : Nat) (s : List Char) :
    Munches offset s (reading offset s).collect := by
  induction hn : s.length using Nat.strongRecOn generalizing offset s with
  | ind n ih =>
    have hblanks : IsGap (s.takeWhile isBlank) :=
      List.all_eq_true.1 List.all_takeWhile
    have hsplit : s.takeWhile isBlank ++ s.dropWhile isBlank = s :=
      List.takeWhile_append_dropWhile
    cases hs : s.dropWhile isBlank with
    | nil =>
      rw [hs, List.append_nil] at hsplit
      rw [collect_eof hs]
      exact .ending (hsplit ▸ hblanks)
    | cons c s' =>
      rw [hs] at hsplit
      cases hl : lexeme? (c :: s') with
      | none =>
        have hc : isBlank c = false := by
          have hnot := List.head?_dropWhile_not isBlank s
          rw [hs] at hnot
          simpa using hnot
        have hfault : Munches offset _ _ := munches_fault hblanks hc hl
        rwa [hsplit, ← collect_fault hs hl] at hfault
      | some l =>
        obtain ⟨hcut, hne⟩ := splits_of_lexeme? hl
        have hshort : l.rest.length < n := by
          have hpos := List.length_pos_iff.2 hne
          rw [← hn, ← hsplit, ← hcut, List.length_append, List.length_append]
          omega
        have hlongest := isLongest_of_lexeme? hl
        rw [← hcut] at hlongest
        have hnext : Munches offset _ _ := .lexeme hblanks hlongest (ih _ hshort _ _ rfl)
        rwa [hcut, hsplit, ← collect_lexeme hs hl] at hnext

theorem span_blanks (hblanks : IsGap blanks) (hc : isBlank c = false)
    (rest : List Char) : (blanks ++ c :: rest).takeWhile isBlank = blanks ∧
      (blanks ++ c :: rest).dropWhile isBlank = c :: rest := by
  rw [List.takeWhile_append_of_pos hblanks, List.dropWhile_append_of_pos hblanks]
  simp [hc]

/-- A stream reads a text as it is cut. -/
theorem collect_of_munches (h : Munches offset s result) :
    (reading offset s).collect = result := by
  induction h with
  | ending hblanks => exact collect_eof (List.dropWhile_eq_nil_iff.2 hblanks)
  | @lexeme offset blanks front rest k result hblanks hlongest _ ih =>
    have hfound : lexeme? (front ++ rest) = some ⟨⟨front, rest⟩, k⟩ :=
      lexeme?_eq_some_iff.2 ⟨hlongest, rfl⟩
    obtain ⟨c, s', hs⟩ := List.exists_cons_of_ne_nil (splits_of_lexeme? hfound).2
    obtain rfl : front = c :: s' := hs
    have hc : isBlank c = false := by
      rw [← Bool.not_eq_true]
      exact fun hblank => by cases hfound.symm.trans (lexeme?_blank hblank _)
    obtain ⟨htake, hdrop⟩ := span_blanks hblanks hc (s' ++ rest)
    rw [← List.cons_append] at htake hdrop
    rw [collect_lexeme hdrop hfound, htake, ih]
  | @openQuote offset blanks rest c hblanks hquote hnone =>
    have hc : isBlank c = false := by rcases hquote with rfl | rfl <;> rfl
    obtain ⟨htake, hdrop⟩ := span_blanks hblanks hc rest
    rw [collect_fault hdrop (lexeme?_eq_none_iff.2 hnone), htake, fault, if_pos hquote]
  | @foreign offset blanks rest c hblanks hc hsingle hdouble hnone =>
    obtain ⟨htake, hdrop⟩ := span_blanks hblanks hc rest
    rw [collect_fault hdrop (lexeme?_eq_none_iff.2 hnone), htake, fault,
      if_neg (not_or.2 ⟨hsingle, hdouble⟩)]

end Stream

theorem munches_scan (text : String) : Munches 0 text.toList (scan text) :=
  Stream.munches_collect 0 text.toList

theorem scan_of_munches {text : String} (h : Munches 0 text.toList result) : scan text = result :=
  Stream.collect_of_munches h

/-- The tokens of a text, or its fault, are those of its longest lexemes. -/
theorem scan_eq_iff_munches (text : String) (result : Except ParseError (List Token)) :
    scan text = result ↔ Munches 0 text.toList result := by
  constructor
  · rintro rfl
    exact munches_scan text
  · exact scan_of_munches

end MapExpr.Token
