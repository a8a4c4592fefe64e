import MapExpr.Proofs.Operators.Comparisons
import MapExpr.Proofs.Parse.Embedded
import MapExpr.Proofs.Parse.Faults

/-!
# Joined texts

Texts of operands with operators between them are a text, which is grouped at its loosest operators,
unless one of its runs of operators has two comparisons.

* `Operand`: a text that is parsed as a tree without an operator at its root;
* `Row.text`: the text of a row of them;
* `Row.gives_text`, `Row.exists_scan`: its words, and where its operators are;
* `Row.parse_second`, `Row.parse_row`: where it is refused, and what it is parsed as.
-/

namespace MapExpr

open Grammar (Category Derives)
open Parse (Operator Expectation)
open Token (Stopped)
open Token.Stream (Gives reading)
open Word (symbol)

/-- A text that is parsed under the limit `d`, as a constant, a variable, a call, a group or a
selector. -/
structure Operand (d : Nat) where
  text : String
  root : Expr
  parses : ParsesTo d text root
  isPrimary : root.isOperator = false

/-- How an operator is written. -/
def Parse.Operator.text (op : Operator) : String :=
  (symbol op.kind).text

variable {d : Nat}

theorem Operand.exists_words (p : Operand d) : ∃ ws,
    (∀ {rest}, Stopped rest → Gives (p.text.toList ++ rest) ws rest) ∧
      Fits d (.phrase .primary) ws p.root := by
  obtain ⟨-, ws, n, -, -, hgives, hderives, hlt⟩ := p.parses.exists_derives
  exact ⟨ws, hgives, n, hderives.primary_of_root p.isPrimary, hlt⟩

namespace Row

/-- The operands and operators of a row with single spaces between them. -/
def text (r : Row Operator (Operand d)) : String :=
  r.first.text ++ .join (r.rest.map fun x => " " ++ x.1.text ++ " " ++ x.2.text)

/-! ## The words of a text -/

theorem gives_operator (op : Operator) (s : List Char) :
    Gives (' ' :: (op.text.toList ++ ' ' :: s)) [symbol op.kind] s := by
  have hop : op.kind.isInfix = true := by simp [Kind.isInfix]
  have hgives := Gives.word (w := symbol op.kind) (Token.lexeme?_infix hop s)
  exact ((Gives.blank rfl _).trans hgives).trans (.blank rfl s)

/-- The characters of further operands, each after its operator. -/
def further (rest : List (Operator × Operand d)) : List Char :=
  rest.flatMap fun x => ' ' :: (x.1.text.toList ++ ' ' :: x.2.text.toList)

theorem toList_text (r : Row Operator (Operand d)) :
    r.text.toList = r.first.text.toList ++ further r.rest := by
  simp [text, further, List.flatMap_map]

theorem stopped_further (rest : List (Operator × Operand d)) {s : List Char} (hs : Stopped s) :
    Stopped (further rest ++ s) := by
  cases rest with
  | nil => exact hs
  | cons x rest => exact (Token.stopped_cons ' ' _).2 rfl

section Words

variable {wordsOf : Operand d → List Word}
  (hgives : ∀ (p : Operand d) {s : List Char}, Stopped s →
    Gives (p.text.toList ++ s) (wordsOf p) s)

include hgives

theorem gives_further (rest : List (Operator × Operand d)) {s : List Char} (hs : Stopped s) :
    Gives (further rest ++ s) (rest.flatMap fun x => symbol x.1.kind :: wordsOf x.2) s := by
  induction rest with
  | nil => exact .refl s
  | cons x rest ih =>
    have hx := (gives_operator x.1 _).trans (hgives x.2 (stopped_further rest hs))
    simpa [further] using hx.trans ih

/-- The words of a row, in front of what may follow its last operand. -/
theorem gives_text (r : Row Operator (Operand d)) {s : List Char} (hs : Stopped s) :
    Gives (r.text.toList ++ s) (r.words Operator.kind wordsOf) s := by
  have hfirst := hgives r.first (stopped_further r.rest hs)
  rw [toList_text, List.append_assoc]
  simpa [words, flat] using hfirst.trans (gives_further hgives r.rest hs)

/-- An operator is a token one blank after the text before it. -/
theorem exists_scan (front : Row Operator (Operand d)) (op : Operator) (p : Operand d)
    (after : List (Operator × Operand d)) : ∃ ts us : List Token,
      ts.map Token.word = front.words Operator.kind wordsOf ∧
      Token.scan (text ⟨front.first, front.rest ++ (op, p) :: after⟩) =
        .ok (ts ++ ⟨op.kind, op.text, front.text.utf8ByteSize + 1⟩ :: us) := by
  let more := ' ' :: (p.text.toList ++ further after)
  have hchars : (text ⟨front.first, front.rest ++ (op, p) :: after⟩).toList =
      front.text.toList ++ [' '] ++ (op.text.toList ++ more) := by
    simp [toList_text, further, more]
  have hfront : Gives (front.text.toList ++ [' '] ++ (op.text.toList ++ more))
      (front.words Operator.kind wordsOf) (op.text.toList ++ more) := by
    have hrow := gives_text hgives front ((Token.stopped_cons ' ' (op.text.toList ++ more)).2 rfl)
    simpa using hrow.trans (.blank rfl _)
  obtain ⟨us, hmore⟩ : ∃ us, Gives more us [] := by
    have hstop := stopped_further after Token.stopped_nil
    have hafter := gives_further hgives after Token.stopped_nil
    rw [List.append_nil] at hstop hafter
    exact ⟨_, (Gives.blank (c := ' ') rfl _).trans ((hgives p hstop).trans hafter)⟩
  have hop : op.kind.isInfix = true := by simp [Kind.isInfix]
  obtain ⟨ts, us, hts, hscan⟩ := hfront.exists_scan hchars (Token.lexeme?_infix hop _) hmore
  have hstart : Token.byteCount (front.text.toList ++ [' ']) = front.text.utf8ByteSize + 1 := by
    rw [Token.byteCount_append, Token.byteCount_toList]
    rfl
  rw [String.ofList_toList, hstart] at hscan
  exact ⟨ts, us, hts, hscan⟩

end Words

/-! ## What a text is parsed as -/

/-- The second comparison of a run is refused, if no run before has two. -/
theorem parse_second {front : Row Operator (Operand d)} {op : Operator}
    (hsecond : op.IsSecondComparison front.operators) (p : Operand d)
    (after : List (Operator × Operand d)) :
    parse ⟨d⟩ (text ⟨front.first, front.rest ++ (op, p) :: after⟩) =
      .error (Expectation.oneComparison.butFound
        ⟨op.kind, op.text, front.text.utf8ByteSize + 1⟩) := by
  choose wordsOf hgives hfits using Operand.exists_words (d := d)
  obtain ⟨ts, us, hts, hscan⟩ := exists_scan hgives front op p after
  rw [parse_eq_error_iff hscan]
  exact run_second hfits hsecond hts rfl

/-- Operands with operators between them are grouped at the loosest operators, if no run of their
operators without `or` and `and` has two comparisons. Otherwise the second comparison of the first
such run is refused. -/
theorem parse_row (r : Row Operator (Operand d)) :
    (¬ Operator.ComparesOnce r.operators → ∃ (front : Row Operator (Operand d)) (op : Operator)
      (p : Operand d) (after : List (Operator × Operand d)),
        r = ⟨front.first, front.rest ++ (op, p) :: after⟩ ∧
        op.IsSecondComparison front.operators ∧
        parse ⟨d⟩ r.text = .error (Expectation.oneComparison.butFound
          ⟨op.kind, op.text, front.text.utf8ByteSize + 1⟩)) ∧
    (Operator.ComparesOnce r.operators → ParsesTo d r.text (r.disjunction Operand.root)) := by
  constructor
  · intro htwice
    obtain ⟨front, op, back, hops, hsecond⟩ := Operator.exists_isSecondComparison htwice
    obtain ⟨x, rest⟩ := r
    obtain ⟨before, rest, rfl, rfl, hrest⟩ := List.map_eq_append_iff.1 hops
    obtain ⟨⟨op, p⟩, after, rfl, rfl, rfl⟩ := List.map_eq_cons_iff.1 hrest
    have hsecond : op.IsSecondComparison (operators ⟨x, before⟩) := hsecond
    exact ⟨⟨x, before⟩, op, p, after, rfl, hsecond, parse_second hsecond p after⟩
  · intro honce
    choose wordsOf hgives hfits using Operand.exists_words (d := d)
    have htext := gives_text hgives r Token.stopped_nil
    rw [List.append_nil] at htext
    obtain ⟨n, hn, hlt⟩ := fits_disjunction hfits honce
    exact .of_gives htext (.whole hn) hlt

theorem scan_shortName : Token.scan "a" = .ok [⟨.identifier, "a", 0⟩, .eof 1] := by
  decide +kernel

theorem scan_shortVariable :
    Token.scan "$v" = .ok [⟨.dollar, "$", 0⟩, ⟨.identifier, "v", 1⟩, .eof 2] := by
  decide +kernel

/-- The operand `a`. -/
def shortName : Operand 1 where
  text := "a"
  root := .selector (.steps false [.plain false "a"])
  parses := by
    rw [ParsesTo, parse_of_scan scan_shortName]
    rfl
  isPrimary := rfl

/-- The operand `$v`. -/
def shortVariable : Operand 1 where
  text := "$v"
  root := .variableRef "v"
  parses := by
    rw [ParsesTo, parse_of_scan scan_shortVariable]
    rfl
  isPrimary := rfl

/-- A comparison and a sum are compared with one more operand in the first text. In the second one
the loosest operator is the first one. -/
theorem parse_row_twice :
    parse ⟨1⟩ "a < $v + a = $v" = .error (.unexpectedToken 11
      "a single comparison (comparisons do not chain)" "'='") ∧
    ParsesTo 1 "a or $v < a * $v" (.or [shortName.root, .comparison .less shortVariable.root
      (.multiplicative shortName.root [(.multiply, shortVariable.root)])]) := by
  constructor
  · obtain ⟨⟨x, before⟩, op, p, after, hrow, hsecond, herror⟩ := (parse_row ⟨shortName,
      [(.relational .less, shortVariable), (.additive .plus, shortName),
        (.relational .equal, shortVariable)]⟩).1 (by decide)
    obtain ⟨rfl, hrest⟩ := Row.mk.inj hrow
    clear hrow
    -- the first comparison is no second one, and the operator after it is none at all
    rcases before with _ | ⟨y, _ | ⟨z, _ | ⟨w, before⟩⟩⟩ <;>
      simp only [List.cons_append, List.nil_append, List.cons.injEq, Prod.mk.injEq,
        List.nil_eq, List.append_eq_nil_iff, reduceCtorEq, and_false] at hrest
    · cases hsecond.last
    · obtain ⟨rfl, ⟨rfl, -⟩, -⟩ := hrest
      cases hsecond.compares
    · obtain ⟨rfl, rfl, ⟨rfl, -⟩, -⟩ := hrest
      exact herror
  · exact (parse_row ⟨shortName, [(.or, shortVariable), (.relational .less, shortName),
      (.multiplicative .multiply, shortVariable)]⟩).2 (by decide)

end Row

end MapExpr
