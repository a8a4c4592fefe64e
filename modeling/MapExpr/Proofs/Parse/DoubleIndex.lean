import MapExpr.Proofs.Parse.Embedded
import MapExpr.Proofs.Parse.Faults
import MapExpr.Proofs.Print.Alike

/-!
# Numbers in the first of two brackets

A number without a point is read as an index before it is known that a second bracket follows, and
then as the constant of a filter. With a point after it the same number is read as a constant from
the beginning.

* `IsInteger`: texts of numbers without a point;
* `parsesTo_indexed`, `parsesTo_pointed`: such a number in the first of two brackets, without and
  with a point after it;
* `exists_error_of_first`, `exists_error_of_second`: when it is refused;
* `SameOutcome`: both texts are refused, or both stand for the same tree;
* `sameOutcome_iff`: so it is unless the first number has more than 64 bits and the second has not.
-/

namespace MapExpr

open Grammar (Derives)
open Parse
open Token (Stopped)
open Token.Stream (Gives)
open Word (symbol)

/-- A text of digits with an optional minus sign. -/
structure IsInteger (p : String) : Prop where
  isNumber : Token.IsNumber p.toList
  whole : p.contains '.' = false

/-- Both texts are refused, or both stand for the same tree. -/
inductive SameOutcome : Except ParseError Parsed → Except ParseError Parsed → Prop
  | refused (e f : ParseError) : SameOutcome (.error e) (.error f)
  | parsed {A B : Parsed} : A.root.same B.root = true → SameOutcome (.ok A) (.ok B)

/-- A name with two brackets after it. -/
def bracketed (x p q : String) : String :=
  x ++ "[" ++ p ++ "][" ++ q ++ "]"

variable {x p q : String} {d : Decimal} {i j : Index}

/-! ## Numbers -/

theorem gives_number (h : Token.IsNumber p.toList) {rest : List Char} (hrest : Stopped rest) :
    Gives (p.toList ++ rest) [⟨.number, p⟩] rest :=
  Gives.word (w := ⟨.number, p⟩) (h.lexeme? hrest)

theorem exists_decimal (h : Token.IsNumber p.toList) : ∃ d, Decimal.ofText? p = some d := by
  have hgenuine := Token.isGenuine_lexeme (h.lexeme? Token.stopped_nil)
  rw [String.ofList_toList] at hgenuine
  exact Option.isSome_iff_exists.1 hgenuine

namespace IsInteger

/-- Digits are an integer. -/
theorem of_digits {c : Char} {s : List Char} (h : (c :: s).all Char.isDigit = true) :
    IsInteger (.ofList (c :: s)) := by
  have hdigits := List.all_eq_true.1 h
  refine ⟨?_, ?_⟩
  · rw [String.toList_ofList]
    exact .positive (.whole ⟨List.cons_ne_nil c s, hdigits⟩)
  · rw [String.contains_char_eq, String.toList_ofList, decide_eq_false_iff_not]
    exact fun hpoint => absurd (hdigits '.' hpoint) (by decide)

/-- With a point after it an integer is a number. -/
theorem isNumber_point (h : IsInteger p) : Token.IsNumber (p ++ ".").toList := by
  have hwhole := h.whole
  rw [String.contains_char_eq, decide_eq_false_iff_not] at hwhole
  have hunsigned : ∀ {s}, '.' ∉ s → Token.IsUnsigned s → Token.IsUnsigned (s ++ ['.']) := by
    intro s hs hs'
    cases hs' with
    | whole hdigits => exact .pointed hdigits (by simp)
    | pointed | fraction => exact absurd (by simp) hs
  have hnumber := h.isNumber
  rw [String.toList_append]
  generalize p.toList = s at *
  cases hnumber with
  | positive hs => exact .positive (hunsigned hwhole hs)
  | negative hs => exact .negative (hunsigned (fun hmem => hwhole (by simp [hmem])) hs)

/-- A point after an integer leaves its value as it is. -/
theorem ofText?_point (h : IsInteger p) (hd : Decimal.ofText? p = some d) :
    Decimal.ofText? (p ++ ".") = some d := by
  obtain ⟨rfl, hne, hdigits⟩ := Decimal.eq_of_whole h.whole hd
  have hdigits := List.all_eq_true.1 hdigits
  have hsign : Decimal.sign (p ++ ".").toList =
      ((Decimal.sign p.toList).1, (Decimal.sign p.toList).2 ++ ['.']) := by
    rw [String.toList_append]
    generalize p.toList = s at *
    cases s with
    | nil => exact absurd rfl hne
    | cons c s =>
      by_cases hc : c = '-'
      · subst hc
        rfl
      · simp [Decimal.sign, hc]
  have htake : ((Decimal.sign p.toList).2 ++ ['.']).takeWhile Char.isDigit =
      (Decimal.sign p.toList).2 := by
    rw [List.takeWhile_append_of_pos hdigits]
    simp
  have hdrop : ((Decimal.sign p.toList).2 ++ ['.']).dropWhile Char.isDigit = ['.'] := by
    rw [List.dropWhile_append_of_pos hdigits]
    rfl
  simp only [Decimal.ofText?, hsign, Decimal.magnitude?, htake, hdrop]
  simp [hne]

end IsInteger

/-! ## Texts -/

/-- The words of a name with two brackets after it. -/
theorem gives_bracketed (hx : Name.isFree x = true) (hp : Token.IsNumber p.toList)
    (hq : Token.IsNumber q.toList) : Gives (bracketed x p q).toList
      [⟨.identifier, x⟩, symbol .leftBracket, ⟨.number, p⟩, symbol .rightBracket,
        symbol .leftBracket, ⟨.number, q⟩, symbol .rightBracket] [] := by
  have hbracket : ∀ {s : String}, Token.IsNumber s.toList → ∀ rest : List Char,
      Gives ('[' :: (s.toList ++ ']' :: rest))
        [symbol .leftBracket, ⟨.number, s⟩, symbol .rightBracket] rest := by
    intro s hs rest
    have hclosed := (gives_number hs ((Token.stopped_cons ']' rest).2 rfl)).trans
      (gives_mark ']' .rightBracket rfl rfl rest)
    exact (gives_mark '[' .leftBracket rfl rfl _).trans hclosed
  have hname : Gives (x.toList ++ '[' :: (p.toList ++ ']' :: '[' :: (q.toList ++ [']'])))
      [⟨.identifier, x⟩] ('[' :: (p.toList ++ ']' :: '[' :: (q.toList ++ [']']))) :=
    gives_name hx ((Token.delimited_cons _ _).2 (by decide))
  simpa [bracketed] using (hname.trans (hbracket hp _)).trans (hbracket hq [])

/-- The filter that a number is. -/
def Filter.number (n : Binary64) : Filter :=
  .operator (.constant (.number n))

/-- An integer in the first bracket is a filter if both brackets hold integers of 64 bits. -/
theorem parsesTo_indexed {n : Nat} (hx : Name.isFree x = true) (hp : IsInteger p)
    (hq : IsInteger q) (hi : Decimal.Integer.ofText? p = some i)
    (hj : Decimal.Integer.ofText? q = some j) (hn : 0 < n) :
    ParsesTo n (bracketed x p q) (childWith x (.filterThenIndex (.number (.ofInt i.toInt)) j)) :=
  .of_gives (gives_bracketed hx hp.isNumber hq.isNumber)
    (.of_child .plainName (.doubleIndex hi hj)) hn

/-- A number with a point in the first bracket is a filter if the second one holds an integer of 64
bits. -/
theorem parsesTo_pointed {n : Nat} (hx : Name.isFree x = true) (hp : IsInteger p)
    (hq : IsInteger q) (hd : Decimal.ofText? p = some d)
    (hj : Decimal.Integer.ofText? q = some j) (hn : filterCost < n) :
    ParsesTo n (bracketed x (p ++ ".") q)
      (childWith x (.filterThenIndex (.number (.ofDecimal d)) j)) := by
  have hfilter : Derives .filter [⟨.number, p ++ "."⟩] (.number (.ofDecimal d)) filterCost := by
    refine .someFilter (.of_primary (.number (hp.ofText?_point hd))) fun w hw => ?_
    obtain ⟨rfl, -⟩ := List.cons.inj hw
    simp [Word.isWhole, String.contains_char_eq]
  exact .of_gives (gives_bracketed hx hp.isNumber_point hq.isNumber)
    (.of_child .plainName (.filteredIndex hfilter hj)) (by simpa using hn)

/-! ## Numbers that are refused -/

section Runs

variable {a b c e : Nat}

/-- The first bracket after a name is open. -/
def firstBracket (x : String) : State :=
  .bracket ⟨false, .plain x⟩ ⟨false, []⟩ (.operand .empty .root)

/-- The second bracket after a name and a filter is open. -/
def secondBracket (x : String) (f : Filter) : State :=
  .secondBracket f ⟨false, .plain x⟩ ⟨false, []⟩ (.operand .empty .root)

theorem run_start_bracket (ts : List Token) :
    start.run 256 (⟨.identifier, x, a⟩ :: ⟨.leftBracket, "[", b⟩ :: ts) =
      (firstBracket x).run 256 ts := rfl

/-- A number without a point is kept until the token after it. -/
theorem run_whole (hp : p.contains '.' = false) (ts : List Token) :
    (firstBracket x).run 256 (⟨.number, p, c⟩ :: ts) =
      (State.bracketNumber ⟨.number, p, c⟩ ⟨false, .plain x⟩ ⟨false, []⟩
        (.operand .empty .root)).run 256 ts := by
  have hwhole : Token.isWhole ⟨.number, p, c⟩ = true := by simp [Token.isWhole, hp]
  rw [State.run_cons]
  simp only [firstBracket, State.step, hwhole]
  rfl

/-- An integer of more than 64 bits in the first bracket is refused. -/
theorem run_firstBracket_of_eq_none (hp : p.contains '.' = false)
    (hi : Decimal.Integer.ofText? p = none) (ts : List Token) :
    (firstBracket x).run 256 (⟨.number, p, c⟩ :: ⟨.rightBracket, "]", e⟩ :: ts) =
      .error (Expectation.integerIndex.butFound ⟨.number, p, c⟩) := by
  rw [run_whole hp, State.run_cons]
  simp only [State.step, hi]
  rfl

/-- In front of a second bracket an index becomes a filter. -/
theorem run_firstBracket_of_eq_some (hp : p.contains '.' = false)
    (hi : Decimal.Integer.ofText? p = some i) (ts : List Token) :
    (firstBracket x).run 256
        (⟨.number, p, c⟩ :: ⟨.rightBracket, "]", e⟩ :: ⟨.leftBracket, "[", b⟩ :: ts) =
      (secondBracket x (.number (.ofInt i.toInt))).run 256 ts := by
  rw [run_whole hp, State.run_cons]
  simp only [State.step, hi]
  rfl

/-- A number with a point is a filter from the beginning. -/
theorem run_firstBracket_of_point (hp : p.contains '.' = true) (hd : Decimal.ofText? p = some d)
    (ts : List Token) :
    (firstBracket x).run 256
        (⟨.number, p, c⟩ :: ⟨.rightBracket, "]", e⟩ :: ⟨.leftBracket, "[", b⟩ :: ts) =
      (secondBracket x (.number (.ofDecimal d))).run 256 ts := by
  have hconstant : constant? ⟨.number, p, c⟩ = some (.number (.ofDecimal d)) := by
    simp [constant?, hd]
  simp only [firstBracket, State.run_cons, State.step, Token.isWhole, hp, beginExpression,
    beginOperand, beginConstant, hconstant]
  rfl

/-- A second bracket that does not hold an integer of 64 bits is refused. -/
theorem run_secondBracket {f : Filter} (hj : Decimal.Integer.ofText? q = none) (ts : List Token) :
    (secondBracket x f).run 256 (⟨.number, q, c⟩ :: ts) =
      .error (Expectation.integerIndex.butFound ⟨.number, q, c⟩) := by
  rw [State.run_cons]
  simp only [secondBracket, State.step, hj]
  rfl

end Runs

/-- The tokens of a name with two brackets after it. -/
theorem scan_bracketed (hx : Name.isFree x = true) (hp : Token.IsNumber p.toList)
    (hq : Token.IsNumber q.toList) : ∃ a b c d e f g h : Nat, Token.scan (bracketed x p q) =
      .ok [⟨.identifier, x, a⟩, ⟨.leftBracket, "[", b⟩, ⟨.number, p, c⟩, ⟨.rightBracket, "]", d⟩,
        ⟨.leftBracket, "[", e⟩, ⟨.number, q, f⟩, ⟨.rightBracket, "]", g⟩, .eof h] := by
  obtain ⟨ts, hts, hscan⟩ := (gives_bracketed hx hp hq).tokens
  simp only [List.map_eq_cons_iff, List.map_eq_nil_iff] at hts
  obtain ⟨⟨_, _, a⟩, _, rfl, ha, ⟨_, _, b⟩, _, rfl, hb, ⟨_, _, c⟩, _, rfl, hc, ⟨_, _, d⟩, _, rfl,
    hd, ⟨_, _, e⟩, _, rfl, he, ⟨_, _, f⟩, _, rfl, hf, ⟨_, _, g⟩, _, rfl, hg, rfl⟩ := hts
  cases ha; cases hb; cases hc; cases hd; cases he; cases hf; cases hg
  exact ⟨a, b, c, d, e, f, g, _, hscan⟩

/-- An integer of more than 64 bits is refused in the first bracket. -/
theorem exists_error_of_first (hx : Name.isFree x = true) (hp : IsInteger p)
    (hq : Token.IsNumber q.toList) (hi : Decimal.Integer.ofText? p = none) :
    ∃ e, parse {} (bracketed x p q) = .error e := by
  obtain ⟨a, b, c, d, e, f, g, h, hscan⟩ := scan_bracketed hx hp.isNumber hq
  exact ⟨_, (parse_eq_error_iff hscan).2
    ((run_start_bracket _).trans (run_firstBracket_of_eq_none hp.whole hi _))⟩

/-- In the second bracket it is refused after any number in the first one. -/
theorem exists_error_of_second (hx : Name.isFree x = true) (hp : Token.IsNumber p.toList)
    (hq : Token.IsNumber q.toList) (hj : Decimal.Integer.ofText? q = none) :
    ∃ e, parse {} (bracketed x p q) = .error e := by
  obtain ⟨a, b, c, d, e, f, g, h, hscan⟩ := scan_bracketed hx hp hq
  suffices hrun : ∃ e', start.run 256 _ = .error e' by
    obtain ⟨e', he'⟩ := hrun
    exact ⟨e', (parse_eq_error_iff hscan).2 he'⟩
  rw [run_start_bracket]
  cases hpoint : p.contains '.' with
  | true =>
    obtain ⟨v, hv⟩ := exists_decimal hp
    exact ⟨_, (run_firstBracket_of_point hpoint hv _).trans (run_secondBracket hj _)⟩
  | false =>
    cases hi : Decimal.Integer.ofText? p with
    | none => exact ⟨_, run_firstBracket_of_eq_none hpoint hi _⟩
    | some i => exact ⟨_, (run_firstBracket_of_eq_some hpoint hi _).trans (run_secondBracket hj _)⟩

/-! ## Both readings -/

theorem same_childWith {m n : Binary64} (h : m.equals n = true) :
    (childWith x (.filterThenIndex (.number m) j)).same
      (childWith x (.filterThenIndex (.number n) j)) = true := by
  simp [childWith, Filter.number, Expr.same, Selector.same, Step.sameAll, Step.same,
    Predicate.same, Filter.same, Constant.same, h]

/-- A name with integers in two brackets stands for the same tree as with a point after the first
integer, or both are refused, unless the first integer has more than 64 bits and the second one has
not. -/
theorem sameOutcome_iff (hx : Name.isFree x = true) (hp : IsInteger p) (hq : IsInteger q) :
    SameOutcome (parse {} (bracketed x p q)) (parse {} (bracketed x (p ++ ".") q)) ↔
      (Decimal.Integer.ofText? p).isSome = true ∨ Decimal.Integer.ofText? q = none := by
  obtain ⟨d, hd⟩ := exists_decimal hp.isNumber
  cases hj : Decimal.Integer.ofText? q with
  | none =>
    obtain ⟨e, he⟩ := exists_error_of_second hx hp.isNumber hq.isNumber hj
    obtain ⟨f, hf⟩ := exists_error_of_second hx hp.isNumber_point hq.isNumber hj
    simp [he, hf, SameOutcome.refused]
  | some j =>
    obtain ⟨B, hB, hroot⟩ :=
      (parsesTo_pointed (n := 256) hx hp hq hd hj (by decide)).exists_parsed
    have hB : parse {} (bracketed x (p ++ ".") q) = .ok B := hB
    cases hi : Decimal.Integer.ofText? p with
    | none =>
      obtain ⟨e, he⟩ := exists_error_of_first hx hp hq.isNumber hi
      rw [he, hB]
      refine ⟨fun hsame => ?_, by simp⟩
      cases hsame
    | some i =>
      obtain ⟨A, hA, hroot'⟩ :=
        (parsesTo_indexed (n := 256) hx hp hq hi hj (by decide)).exists_parsed
      have hA : parse {} (bracketed x p q) = .ok A := hA
      have hequals := Binary64.equals_symm (Index.equals_of_ofText? hi hd)
      rw [hA, hB]
      refine ⟨fun _ => .inl rfl, fun _ => .parsed ?_⟩
      rw [hroot, hroot']
      exact same_childWith hequals

/-- Between the integers that a double holds, both readings round to the same one. -/
theorem sameOutcome_rounded : SameOutcome (parse {} "x[9007199254740993][1]")
    (parse {} "x[9007199254740993.][1]") :=
  (sameOutcome_iff (x := "x") (p := "9007199254740993") (q := "1") (by decide)
    (.of_digits (by decide)) (.of_digits (by decide))).2 (.inl (by decide))

/-- The least integer that is too large for an index is refused without a point, and a constant with
one. -/
theorem not_sameOutcome_large : IsInteger "9223372036854775808" ∧ IsInteger "1" ∧
    ¬ SameOutcome (parse {} "x[9223372036854775808][1]")
      (parse {} "x[9223372036854775808.][1]") := by
  have hp : IsInteger "9223372036854775808" := .of_digits (by decide)
  have hq : IsInteger "1" := .of_digits (by decide)
  refine ⟨hp, hq, fun hsame => ?_⟩
  obtain ⟨d, hd⟩ := exists_decimal hp.isNumber
  obtain ⟨e, he⟩ := exists_error_of_first (x := "x") (by decide) hp hq.isNumber (by decide)
  obtain ⟨B, hB, -⟩ := (parsesTo_pointed (x := "x") (j := 1) (n := 256) (by decide) hp hq hd
    (by decide) (by decide)).exists_parsed
  have he : parse {} "x[9223372036854775808][1]" = .error e := he
  have hB : parse {} "x[9223372036854775808.][1]" = .ok B := hB
  rw [he, hB] at hsame
  cases hsame

end MapExpr
