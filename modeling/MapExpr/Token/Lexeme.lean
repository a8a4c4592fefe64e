import MapExpr.Name
import MapExpr.Token.Basic

/-!
# Lexemes

The four lexeme classes (numbers, literals, names and punctuation marks), each as the longest
lexeme of its class in front of a text, with the rest of the text.

* `lexeme?`: the first class that has a lexeme wins, so that `-1` and `.5` are numbers;
* `append_of_lexeme?`, `ne_nil_of_lexeme?`: a lexeme and the rest are the text again, and a lexeme
  is never empty.
-/

namespace MapExpr.Token

/-- A text cut in two. -/
structure Cut where
  front : List Char
  rest : List Char
deriving DecidableEq, Repr

/-- A kind and the lexeme of that kind in front of a text. -/
structure Lexeme extends Cut where
  kind : Kind
deriving DecidableEq, Repr

namespace Cut

/-- The longest front of `s` all of whose characters pass. -/
def run (pass : Char → Bool) (s : List Char) : Cut :=
  ⟨s.takeWhile pass, s.dropWhile pass⟩

/-- Moves `front` from before the text into the front of the cut. -/
def after (front : List Char) (c : Cut) : Cut :=
  ⟨front ++ c.front, c.rest⟩

/-- `c` cuts `s` after at least one character. -/
def Splits (c : Cut) (s : List Char) : Prop :=
  c.front ++ c.rest = s ∧ c.front ≠ []

@[simp] theorem front_run (pass : Char → Bool) (s : List Char) :
    (run pass s).front = s.takeWhile pass := rfl

@[simp] theorem rest_run (pass : Char → Bool) (s : List Char) :
    (run pass s).rest = s.dropWhile pass := rfl

@[simp] theorem front_after (front : List Char) (c : Cut) :
    (c.after front).front = front ++ c.front := rfl

@[simp] theorem rest_after (front : List Char) (c : Cut) : (c.after front).rest = c.rest := rfl

theorem run_append (pass : Char → Bool) (s : List Char) :
    (run pass s).front ++ (run pass s).rest = s :=
  List.takeWhile_append_dropWhile

end Cut

/-! ## The classes -/

/-- Digits with an optional point and fraction, at least one digit in all. -/
def unsigned? (s : List Char) : Option Cut :=
  let whole := Cut.run Char.isDigit s
  match whole.rest with
  | '.' :: s =>
    let fraction := Cut.run Char.isDigit s
    if whole.front = [] ∧ fraction.front = [] then none
    else some (fraction.after (whole.front ++ ['.']))
  | _ => if whole.front = [] then none else some whole

/-- An unsigned number with an optional minus sign. -/
def number? : List Char → Option Cut
  | '-' :: s => (unsigned? s).map (Cut.after ['-'])
  | s => unsigned? s

/-- What is quoted by `quote`, in front of which the text `s` follows, with both quotes. -/
def quoted? (quote : Char) (s : List Char) : Option Cut :=
  let body := Cut.run (· ≠ quote) s
  match body.rest with
  | [] => none
  | close :: s => some ⟨quote :: body.front ++ [close], s⟩

/-- Characters between two quotes that are not among them; there are no escapes. -/
def literal? : List Char → Option Cut
  | '\x27' :: s => quoted? '\x27' s
  | '"' :: s => quoted? '"' s
  | _ => none

/-- A start character and the name characters after it. -/
def name? : List Char → Option Cut
  | c :: s => if Name.isStart c then some ((Cut.run Name.isPart s).after [c]) else none
  | [] => none

/-- The spelling of one kind. -/
def mark? (k : Kind) (s : List Char) : Option Cut := do
  let spelling := (← k.spelling?).toList
  if spelling ≠ [] ∧ spelling <+: s then some ⟨spelling, s.drop spelling.length⟩ else none

/-- The lexeme of some kind in front of `s`. -/
def lexeme? (s : List Char) : Option Lexeme :=
  (number? s).map (⟨·, .number⟩)
    <|> (literal? s).map (⟨·, .literal⟩)
    <|> (name? s).map (fun c => ⟨c, .ofName (.ofList c.front)⟩)
    <|> Kind.marks.findSome? fun k => (mark? k s).map (⟨·, k⟩)

/-! ## Nothing is lost -/

theorem splits_of_unsigned? {s : List Char} {c : Cut} (h : unsigned? s = some c) : c.Splits s := by
  have whole := Cut.run_append Char.isDigit s
  simp only [unsigned?] at h
  split at h
  · rename_i s' hrest
    rw [hrest] at whole
    simp only [Option.ite_none_left_eq_some, Option.some.injEq] at h
    obtain ⟨-, rfl⟩ := h
    refine ⟨Eq.trans ?_ whole, by simp⟩
    simp
  · simp only [Option.ite_none_left_eq_some, Option.some.injEq] at h
    obtain ⟨hne, rfl⟩ := h
    exact ⟨whole, hne⟩

theorem splits_of_number? {s : List Char} {c : Cut} (h : number? s = some c) : c.Splits s := by
  unfold number? at h
  split at h
  · obtain ⟨c, hc, rfl⟩ := Option.map_eq_some_iff.1 h
    simp [Cut.Splits, (splits_of_unsigned? hc).1]
  · exact splits_of_unsigned? h

theorem splits_of_quoted? {quote : Char} {s : List Char} {c : Cut} (h : quoted? quote s = some c) :
    c.Splits (quote :: s) := by
  have body := Cut.run_append (· ≠ quote) s
  simp only [quoted?] at h
  split at h
  · simp at h
  · rename_i close s' hrest
    obtain rfl := Option.some.inj h
    rw [hrest] at body
    simpa [Cut.Splits] using body

theorem splits_of_literal? {s : List Char} {c : Cut} (h : literal? s = some c) : c.Splits s := by
  unfold literal? at h
  split at h
  · exact splits_of_quoted? h
  · exact splits_of_quoted? h
  · simp at h

theorem splits_of_name? {s : List Char} {c : Cut} (h : name? s = some c) : c.Splits s := by
  unfold name? at h
  split at h
  · split at h
    · obtain rfl := Option.some.inj h
      simp [Cut.Splits]
    · simp at h
  · simp at h

theorem splits_of_mark? {k : Kind} {s : List Char} {c : Cut} (h : mark? k s = some c) :
    c.Splits s := by
  obtain ⟨spelling, -, h⟩ := Option.bind_eq_some_iff.1 h
  simp only [Option.ite_none_right_eq_some] at h
  obtain ⟨⟨hne, t, rfl⟩, h⟩ := h
  obtain rfl := Option.some.inj h
  simpa [Cut.Splits] using hne

theorem splits_of_lexeme? {s : List Char} {l : Lexeme} (h : lexeme? s = some l) :
    l.toCut.Splits s := by
  simp only [lexeme?, Option.orElse_eq_orElse, Option.orElse_eq_or, Option.or_eq_some_iff,
    Option.map_eq_some_iff] at h
  rcases h with ⟨c, hc, rfl⟩ | ⟨-, ⟨c, hc, rfl⟩ | ⟨-, ⟨c, hc, rfl⟩ | ⟨-, h⟩⟩⟩
  · exact splits_of_number? hc
  · exact splits_of_literal? hc
  · exact splits_of_name? hc
  · obtain ⟨k, -, h⟩ := List.exists_of_findSome?_eq_some h
    obtain ⟨c, hc, rfl⟩ := Option.map_eq_some_iff.1 h
    exact splits_of_mark? hc

end MapExpr.Token
