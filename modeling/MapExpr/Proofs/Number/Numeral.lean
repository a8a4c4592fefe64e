import MapExpr.Number.Decimal
import MapExpr.Token.Lexeme

/-!
# Numerals

A numeral that is written out is read as the decimal that it writes, and as the integer if it has
no point. In front of a text that goes on with neither a digit nor a point, it is one lexeme.

* `Decimal.numeral`: a decimal written out with its sign;
* `Decimal.ofText?_numeral`, `Decimal.Integer.ofText?_numeral`: what it is read as;
* `Token.number?_numeral`: that it is a lexeme;
* `Token.isSome_ofText?`: every lexeme of a number is read as a decimal.
-/

namespace MapExpr

namespace Decimal

/-- `n / 10 ^ places` written out, with a minus sign if `negative`. -/
def numeral (negative : Bool) (places n : Nat) : List Char :=
  if negative then '-' :: fixed places n else fixed places n

/-! ## Digits -/

theorem isDigit_of_mem_toDigits {n : Nat} {c : Char} (h : c ∈ Nat.toDigits 10 n) :
    c.isDigit = true :=
  Nat.isDigit_of_mem_toDigits (by decide) (by decide) h

theorem isDigit_of_mem_padded {width n : Nat} {c : Char} (h : c ∈ padded width n) :
    c.isDigit = true := by
  simp only [padded, List.mem_append, List.mem_replicate] at h
  rcases h with ⟨-, rfl⟩ | h
  · rfl
  · exact isDigit_of_mem_toDigits h

theorem length_padded {width n : Nat} (hw : 0 < width) (h : n < 10 ^ width) :
    (padded width n).length = width := by
  have := (Nat.length_toDigits_le_iff (by decide) hw).2 h
  simp only [padded, List.length_append, List.length_replicate]
  omega

theorem natOfDigits_append (s t : List Char) :
    natOfDigits (s ++ t) = 10 ^ t.length * natOfDigits s + natOfDigits t := by
  rw [natOfDigits, Nat.ofDigitChars_append, Nat.ofDigitChars_eq_ofDigitChars_zero]
  rfl

theorem natOfDigits_padded (width n : Nat) : natOfDigits (padded width n) = n := by
  simp [padded, natOfDigits, Nat.ofDigitChars_append]

/-- The parts of a numeral without its sign: digits, and the digits after the point, if any. -/
structure Parts (places n : Nat) where
  whole : List Char
  fraction : List Char
  whole_ne_nil : whole ≠ []
  isDigit_whole : ∀ c ∈ whole, c.isDigit = true
  isDigit_fraction : ∀ c ∈ fraction, c.isDigit = true
  length_fraction : fraction.length = places
  natOfDigits_eq : natOfDigits (whole ++ fraction) = n
  fixed_eq : fixed places n = whole ++ if places = 0 then [] else '.' :: fraction

/-- The parts of a numeral. -/
def parts (places n : Nat) : Parts places n :=
  if h : places = 0 then
    { whole := Nat.toDigits 10 n
      fraction := []
      whole_ne_nil := Nat.toDigits_ne_nil
      isDigit_whole := fun _ => isDigit_of_mem_toDigits
      isDigit_fraction := by simp
      length_fraction := by simp [h]
      natOfDigits_eq := by simp [natOfDigits]
      fixed_eq := by simp [fixed, h] }
  else
    { whole := Nat.toDigits 10 (n / 10 ^ places)
      fraction := padded places (n % 10 ^ places)
      whole_ne_nil := Nat.toDigits_ne_nil
      isDigit_whole := fun _ => isDigit_of_mem_toDigits
      isDigit_fraction := fun _ => isDigit_of_mem_padded
      length_fraction :=
        length_padded (Nat.pos_of_ne_zero h) (Nat.mod_lt _ (Nat.pow_pos (by decide)))
      natOfDigits_eq := by
        rw [natOfDigits_append, natOfDigits_padded,
          length_padded (Nat.pos_of_ne_zero h) (Nat.mod_lt _ (Nat.pow_pos (by decide))),
          natOfDigits, Nat.ofDigitChars_ten_toDigits, Nat.div_add_mod]
      fixed_eq := by simp [fixed, h] }

/-- A numeral without a sign begins with a digit. -/
theorem fixed_eq_cons (places n : Nat) : ∃ c s, fixed places n = c :: s ∧ c.isDigit = true := by
  obtain ⟨c, s, h⟩ := List.exists_cons_of_ne_nil (parts places n).whole_ne_nil
  refine ⟨c, s ++ if places = 0 then [] else '.' :: (parts places n).fraction, ?_, ?_⟩
  · rw [(parts places n).fixed_eq, h, List.cons_append]
  · exact (parts places n).isDigit_whole c (by simp [h])

theorem ne_minus_of_isDigit {c : Char} (h : c.isDigit = true) : c ≠ '-' := by
  rintro rfl
  exact absurd h (by decide)

theorem sign_numeral (negative : Bool) (places n : Nat) :
    sign (numeral negative places n) = (negative, fixed places n) := by
  cases negative with
  | true => rfl
  | false =>
    obtain ⟨c, s, h, hc⟩ := fixed_eq_cons places n
    have hne := ne_minus_of_isDigit hc
    simp only [numeral, Bool.false_eq_true, ↓reduceIte, h]
    unfold sign
    split
    · simp_all
    · rfl

/-! ## Reading -/

theorem takeWhile_fixed (places n : Nat) :
    (fixed places n).takeWhile Char.isDigit = (parts places n).whole := by
  rw [(parts places n).fixed_eq, List.takeWhile_append_of_pos (parts places n).isDigit_whole]
  split <;> simp

theorem dropWhile_fixed (places n : Nat) :
    (fixed places n).dropWhile Char.isDigit =
      if places = 0 then [] else '.' :: (parts places n).fraction := by
  rw [(parts places n).fixed_eq, List.dropWhile_append_of_pos (parts places n).isDigit_whole]
  split <;> simp

theorem magnitude?_fixed (negative : Bool) (places n : Nat) :
    magnitude? negative (fixed places n) = some ⟨negative, n, places⟩ := by
  have hval := (parts places n).natOfDigits_eq
  have hlen := (parts places n).length_fraction
  simp only [magnitude?, takeWhile_fixed, dropWhile_fixed]
  by_cases h : places = 0
  · subst h
    rw [List.eq_nil_of_length_eq_zero hlen, List.append_nil] at hval
    simp [(parts 0 n).whole_ne_nil, hval]
  · simpa [h, (parts places n).whole_ne_nil, hval, hlen] using (parts places n).isDigit_fraction

theorem ofText?_numeral (negative : Bool) (places n : Nat) :
    ofText? (.ofList (numeral negative places n)) = some ⟨negative, n, places⟩ := by
  simp only [ofText?, String.toList_ofList, sign_numeral, magnitude?_fixed]

theorem Integer.ofText?_numeral {negative : Bool} {n : Nat}
    (h : InRange (if negative then -n else n : Int)) :
    ofText? (.ofList (numeral negative 0 n)) =
      some (.ofInt (if negative then -n else n : Int)) := by
  have hdigits : ∀ c ∈ Nat.toDigits 10 n, c.isDigit = true := fun _ => isDigit_of_mem_toDigits
  have hval : natOfDigits (Nat.toDigits 10 n) = n := by simp [natOfDigits]
  simp only [ofText?, String.toList_ofList, sign_numeral, fixed, ↓reduceIte, hval]
  rw [if_pos ⟨Nat.toDigits_ne_nil, List.all_eq_true.2 hdigits, h⟩]

/-- A point is written exactly if there are places. -/
theorem point_mem_numeral {negative : Bool} {places n : Nat} :
    '.' ∈ numeral negative places n ↔ places ≠ 0 := by
  have hdigit : ∀ {s : List Char}, (∀ c ∈ s, c.isDigit = true) → '.' ∉ s :=
    fun h hmem => absurd (h _ hmem) (by decide)
  have hfixed : '.' ∈ fixed places n ↔ places ≠ 0 := by
    rw [(parts places n).fixed_eq]
    split <;> simp_all [hdigit (parts places n).isDigit_whole]
  cases negative <;> simp [numeral, hfixed]

theorem of_mem_sign {s : List Char} {c : Char} (h : c ∈ s) : c = '-' ∨ c ∈ (sign s).2 := by
  unfold sign
  split
  · simpa using h
  · exact .inr h

/-- An integer has no point. -/
theorem Integer.contains_point {x : String} {i : Int64} (h : Integer.ofText? x = some i) :
    x.contains '.' = false := by
  simp only [Integer.ofText?, Option.ite_none_right_eq_some] at h
  obtain ⟨⟨-, hdigits, -⟩, -⟩ := h
  rw [String.contains_char_eq, decide_eq_false_iff_not]
  intro hmem
  rcases of_mem_sign hmem with hc | hc
  · exact absurd hc (by decide)
  · exact absurd (List.all_eq_true.1 hdigits _ hc) (by decide)

end Decimal

/-! ## Lexemes -/

namespace Token

open Decimal

/-- A numeral in front of `rest` does not go on in `rest`. -/
def EndsNumeral (rest : List Char) : Prop :=
  ∀ c ∈ rest.head?, c.isDigit = false ∧ c ≠ '.'

theorem takeWhile_isDigit_append {s rest : List Char} (hs : ∀ c ∈ s, c.isDigit = true)
    (hrest : ∀ c ∈ rest.head?, c.isDigit = false) :
    (s ++ rest).takeWhile Char.isDigit = s ∧ (s ++ rest).dropWhile Char.isDigit = rest := by
  rw [List.takeWhile_append_of_pos hs, List.dropWhile_append_of_pos hs]
  cases rest with
  | nil => simp
  | cons c rest => simp [hrest c (by simp)]

theorem unsigned?_fixed {rest : List Char} (hrest : EndsNumeral rest) (places n : Nat) :
    unsigned? (fixed places n ++ rest) = some ⟨fixed places n, rest⟩ := by
  have hdigits := (parts places n).isDigit_whole
  have hne := (parts places n).whole_ne_nil
  rw [(parts places n).fixed_eq]
  by_cases h : places = 0
  · -- no point: `rest` follows the digits
    obtain ⟨htake, hdrop⟩ := takeWhile_isDigit_append hdigits fun c hc => (hrest c hc).1
    simp only [h, ↓reduceIte, List.append_nil, unsigned?, Cut.rest_run, Cut.front_run] at *
    rw [hdrop, htake]
    split
    · exact absurd rfl (hrest '.' (by simp)).2
    · simp only [hne, ↓reduceIte, Cut.run, htake, hdrop]
  · -- a point, and `rest` follows the digits after it
    have hdot : ∀ c ∈ ('.' :: ((parts places n).fraction ++ rest)).head?, c.isDigit = false := by
      simp
    obtain ⟨htake, hdrop⟩ := takeWhile_isDigit_append hdigits hdot
    obtain ⟨htake', hdrop'⟩ := takeWhile_isDigit_append (parts places n).isDigit_fraction
      fun c hc => (hrest c hc).1
    simp only [h, ↓reduceIte, List.append_assoc, List.cons_append, unsigned?, Cut.rest_run,
      Cut.front_run, hdrop, htake, hne, false_and, Option.some.injEq, Cut.after, htake', hdrop']
    simp

theorem number?_numeral {rest : List Char} (hrest : EndsNumeral rest) (negative : Bool)
    (places n : Nat) :
    number? (numeral negative places n ++ rest) = some ⟨numeral negative places n, rest⟩ := by
  cases negative with
  | true => simp [numeral, number?, unsigned?_fixed hrest, Cut.after]
  | false =>
    obtain ⟨c, s, h, hc⟩ := fixed_eq_cons places n
    have hne := ne_minus_of_isDigit hc
    have hunsigned := unsigned?_fixed hrest places n
    simp only [numeral, Bool.false_eq_true, ↓reduceIte]
    rw [h, List.cons_append] at hunsigned ⊢
    unfold number?
    split
    · simp_all
    · exact hunsigned

/-- What is scanned as a number without a sign is read as one. -/
theorem isSome_magnitude? {s : List Char} {c : Cut} (h : unsigned? s = some c) (negative : Bool) :
    (magnitude? negative c.front).isSome = true := by
  have hdigits : ∀ {s : List Char}, ∀ c ∈ s.takeWhile Char.isDigit, c.isDigit = true :=
    fun c hc => List.all_eq_true.1 List.all_takeWhile c hc
  simp only [unsigned?] at h
  split at h
  · rename_i s' hrest
    simp only [Option.ite_none_left_eq_some, Option.some.injEq, not_and] at h
    obtain ⟨hsome, rfl⟩ := h
    have hpoint : ∀ c ∈ ('.' :: s'.takeWhile Char.isDigit).head?, c.isDigit = false := by simp
    obtain ⟨htake, hdrop⟩ := takeWhile_isDigit_append (hdigits (s := s)) hpoint
    simp only [magnitude?, Cut.front_after, Cut.front_run, List.append_assoc, List.cons_append,
      List.nil_append, htake, hdrop]
    rw [if_pos ⟨by simpa using hsome, List.all_takeWhile⟩]
    rfl
  · simp only [Option.ite_none_left_eq_some, Option.some.injEq] at h
    obtain ⟨hne, rfl⟩ := h
    have hend : ∀ c ∈ ([] : List Char).head?, c.isDigit = false := by simp
    obtain ⟨htake, hdrop⟩ := takeWhile_isDigit_append (hdigits (s := s)) hend
    rw [List.append_nil] at htake hdrop
    simpa [magnitude?, htake, hdrop] using hne

/-- What is scanned as a number is read as one. -/
theorem isSome_ofText? {s : List Char} {c : Cut} (h : number? s = some c) :
    (ofText? (.ofList c.front)).isSome = true := by
  unfold number? at h
  simp only [ofText?, String.toList_ofList]
  split at h
  · obtain ⟨c, hc, rfl⟩ := Option.map_eq_some_iff.1 h
    exact isSome_magnitude? hc _
  · rename_i hminus
    have hsign : sign c.front = (false, c.front) := by
      unfold sign
      split
      · rename_i s' hfront
        have hcut := (splits_of_unsigned? h).1
        rw [hfront, List.cons_append] at hcut
        exact absurd hcut.symm (hminus _)
      · rfl
    rw [hsign]
    exact isSome_magnitude? h _

end Token

end MapExpr
