import MapExpr.Proofs.Grammar.Language
import MapExpr.Proofs.Grammar.Roots
import MapExpr.Proofs.Print.Words
import MapExpr.Proofs.Token.Within

/-!
# Texts in brackets

A text that is parsed stands for the same tree in brackets. A group, an argument and a scoped
selector need one level more of nesting than the text, and a filter needs four.

* `ParsesTo`: what a text is parsed as under a limit;
* `ParsesTo.exists_derives`, `ParsesTo.of_gives`: the words of such a text;
* `exists_further`, `exists_arguments`: a row of such texts with commas between them;
* `parsesTo_embedded`: groups, calls, scoped selectors and filters.
-/

namespace MapExpr

open Grammar (Derives)
open Parse (filterCost)
open Token (Stopped Delimited)
open Token.Stream (Gives)
open Word (optional symbol)

/-- Under the limit `d` the text `t` is parsed as the tree `e`. -/
def ParsesTo (d : Nat) (t : String) (e : Expr) : Prop :=
  (parse ⟨d⟩ t).map Parsed.root = .ok e

variable {d : Nat} {t f x : String} {e R : Expr} {s : Selector} {i : Index} {ws us : List Word}
  {rest : List Char}

/-! ## The words of a text -/

namespace ParsesTo

theorem exists_parsed (h : ParsesTo d t e) : ∃ A, parse ⟨d⟩ t = .ok A ∧ A.root = e := by
  unfold ParsesTo at h
  cases hparse : parse ⟨d⟩ t with
  | error e' => rw [hparse] at h; cases h
  | ok A =>
    rw [hparse] at h
    exact ⟨A, rfl, Except.ok.inj h⟩

/-- A text that is parsed gives words that derive its tree, wherever it stands in front of a blank,
a comma, a closing bracket or nothing. -/
theorem exists_derives (h : ParsesTo d t e) : ∃ ts ws n, Token.scan t = .ok ts ∧
    ts.dropLast.map Token.word = ws ∧
    (∀ {rest}, Stopped rest → Gives (t.toList ++ rest) ws rest) ∧
    Derives .expression ws e n ∧ n < d := by
  obtain ⟨A, hparse, rfl⟩ := h.exists_parsed
  obtain ⟨ts, n, hscan, -, hderives, hlt⟩ := derives_of_parse hparse
  exact ⟨ts, _, n, hscan, rfl, fun hrest => Token.Stream.gives_of_scan hscan hrest, hderives, hlt⟩

/-- A text is parsed as the tree that its words derive, if the limit is above their nesting. -/
theorem of_gives {n : Nat} (h : Gives t.toList ws []) (hderives : Derives .expression ws e n)
    (hlt : n < d) : ParsesTo d t e := by
  obtain ⟨ts, rfl, hscan⟩ := h.tokens
  have hlast : (ts ++ [Token.eof t.utf8ByteSize]).dropLast = ts := List.dropLast_concat
  rw [← hlast] at hderives
  rw [ParsesTo, (parse_of_derives hscan hderives ⟨d⟩).1 hlt]
  rfl

end ParsesTo

/-! ## Marks and names around a text -/

theorem gives_mark (c : Char) (k : Kind) (hk : k.isPlain = true)
    (hc : (symbol k).text.toList = [c]) (rest : List Char) :
    Gives (c :: rest) [symbol k] rest := by
  have hgives := Gives.word (w := symbol k) (Token.lexeme?_plain hk rest)
  rwa [hc] at hgives

theorem gives_name (hx : Name.isFree x = true) (hrest : Delimited rest) :
    Gives (x.toList ++ rest) [⟨.identifier, x⟩] rest :=
  Gives.word (w := ⟨.identifier, x⟩) (Token.lexeme?_name hx hrest)

theorem gives_index (i : Index) :
    Gives ('[' :: ((toString i.toInt).toList ++ [']']))
      [symbol .leftBracket, ⟨.number, toString i.toInt⟩, symbol .rightBracket] [] := by
  have hgives := (Index.legible i .nil).gives [] Token.delimited_nil
  rw [List.append_nil, List.append_nil, Index.wordsOf_pieces] at hgives
  exact hgives

/-- A text and the parenthesis that closes it. -/
theorem gives_closed {c : List Char} (h : ∀ {rest}, Stopped rest → Gives (c ++ rest) ws rest) :
    Gives (c ++ [')']) (ws ++ [symbol .rightParen]) [] :=
  (h ((Token.stopped_cons ')' []).2 rfl)).trans (gives_mark ')' .rightParen rfl rfl [])

/-! ## Groups and scoped selectors -/

namespace ParsesTo

/-- In parentheses a text is a group. -/
theorem in_group (h : ParsesTo d t e) : ParsesTo (d + 1) ("(" ++ t ++ ")") (.group e) := by
  obtain ⟨-, ws, n, -, -, hgives, hderives, hlt⟩ := h.exists_derives
  have hrow : Gives ("(" ++ t ++ ")").toList
      (symbol .leftParen :: (ws ++ [symbol .rightParen])) [] := by
    simpa using (gives_mark '(' .leftParen rfl rfl _).trans (gives_closed hgives)
  exact .of_gives hrow (.of_primary (.group hderives)) (Nat.succ_lt_succ hlt)

/-- In parentheses after a dollar a selector is scoped. -/
theorem in_scope (h : ParsesTo d t (.selector s)) :
    ParsesTo (d + 1) ("$(" ++ t ++ ")") (.selector (.scoped s)) := by
  obtain ⟨-, ws, n, -, -, hgives, hderives, hlt⟩ := h.exists_derives
  have hopened := (gives_mark '(' .leftParen rfl rfl _).trans (gives_closed hgives)
  have hrow : Gives ("$(" ++ t ++ ")").toList
      (symbol .dollar :: symbol .leftParen :: (ws ++ [symbol .rightParen])) [] := by
    simpa using (gives_mark '$' .dollar rfl rfl _).trans hopened
  exact .of_gives hrow (.of_primary (.selected (.scopedSelector hderives.selector_of_root)))
    (Nat.succ_lt_succ hlt)

end ParsesTo

/-! ## Arguments -/

/-- The characters of further arguments, each after a comma. -/
def furtherArguments (args : List (String × Expr)) : List Char :=
  args.flatMap fun a => ',' :: a.1.toList

theorem stopped_further (args : List (String × Expr)) (hrest : Stopped rest) :
    Stopped (furtherArguments args ++ rest) := by
  cases args with
  | nil => exact hrest
  | cons a args => exact (Token.stopped_cons ',' _).2 rfl

/-- Texts after commas are further arguments. -/
theorem exists_further {args : List (String × Expr)} (h : ∀ a ∈ args, ParsesTo d a.1 a.2)
    (hrest : Stopped rest) :
    ∃ us, Gives (furtherArguments args ++ rest) us rest ∧
      ∀ {ws es m}, Derives .arguments ws es m → m ≤ d →
        ∃ n, Derives .arguments (ws ++ us) (es ++ args.map Prod.snd) n ∧ n ≤ d := by
  induction args with
  | nil => exact ⟨[], .refl rest, fun {_ _ m} hm hle => ⟨m, by simpa using hm, hle⟩⟩
  | cons a args ih =>
    obtain ⟨ha, hargs⟩ := List.forall_mem_cons.1 h
    obtain ⟨-, ws, n, -, -, hgives, hderives, hlt⟩ := ha.exists_derives
    obtain ⟨us, hus, hmore⟩ := ih hargs
    have htext := (hgives (stopped_further args hrest)).trans hus
    refine ⟨symbol .comma :: (ws ++ us), ?_, fun {vs es m} hm hle => ?_⟩
    · simpa [furtherArguments] using (gives_mark ',' .comma rfl rfl _).trans htext
    · obtain ⟨k, hk, hkle⟩ := hmore (.nextArgument (p := (symbol .comma).text) hm hderives)
        (Nat.max_le.2 ⟨hle, hlt⟩)
      exact ⟨k, by simpa [symbol] using hk, hkle⟩

/-- Texts with commas between them are arguments. -/
theorem exists_arguments {a : String × Expr} {args : List (String × Expr)}
    (h : ∀ b ∈ a :: args, ParsesTo d b.1 b.2) (hrest : Stopped rest) :
    ∃ ws n, Gives ((",".intercalate ((a :: args).map Prod.fst)).toList ++ rest) ws rest ∧
      Derives .arguments ws ((a :: args).map Prod.snd) n ∧ n ≤ d := by
  obtain ⟨ha, hargs⟩ := List.forall_mem_cons.1 h
  obtain ⟨-, ws, n, -, -, hgives, hderives, hlt⟩ := ha.exists_derives
  obtain ⟨us, hus, hmore⟩ := exists_further hargs hrest
  obtain ⟨k, hk, hkle⟩ := hmore (.firstArgument hderives) hlt
  have htext := (hgives (stopped_further args hrest)).trans hus
  have hchars : (",".intercalate ((a :: args).map Prod.fst)).toList =
      a.1.toList ++ furtherArguments args := by
    rw [String.toList_intercalate, List.map_cons, List.map_cons]
    exact (intercalate_eq ',' a.1.toList _).trans (by simp [furtherArguments, List.flatMap_map])
  refine ⟨ws ++ us, k, ?_, hk, hkle⟩
  rwa [hchars, List.append_assoc]

/-! ## Calls -/

/-- A dollar, if there is one, a name and a parenthesis. -/
theorem gives_callee (withDollar : Bool) (hf : Name.isFree f = true) (rest : List Char) :
    Gives ((if withDollar then "$" else "").toList ++ (f.toList ++ '(' :: rest))
      (optional withDollar (symbol .dollar) ++ [⟨.identifier, f⟩, symbol .leftParen]) rest := by
  have hname := (gives_name hf ((Token.delimited_cons '(' rest).2 (by decide))).trans
    (gives_mark '(' .leftParen rfl rfl rest)
  cases withDollar with
  | true => exact (gives_mark '$' .dollar rfl rfl _).trans hname
  | false => exact hname

/-- A call of texts is a call of their trees. -/
theorem parsesTo_call {args : List (String × Expr)} (withDollar : Bool)
    (hf : Name.isFree f = true) (h : ∀ a ∈ args, ParsesTo d a.1 a.2) :
    ParsesTo (d + 1)
      ((if withDollar then "$" else "") ++ f ++ "(" ++ ",".intercalate (args.map Prod.fst) ++ ")")
      (.call (.mk withDollar f (args.map Prod.snd))) := by
  cases args with
  | nil =>
    have hrow : Gives ((if withDollar then "$" else "") ++ f ++ "(" ++ "" ++ ")").toList
        (optional withDollar (symbol .dollar) ++
          [⟨.identifier, f⟩, symbol .leftParen, symbol .rightParen]) [] := by
      simpa using (gives_callee withDollar hf _).trans (gives_mark ')' .rightParen rfl rfl [])
    exact .of_gives hrow (.of_primary .callEmpty) (Nat.succ_pos d)
  | cons a args =>
    have hstop : Stopped [')'] := (Token.stopped_cons ')' []).2 rfl
    obtain ⟨ws, n, hgives, hderives, hle⟩ := exists_arguments h hstop
    have hclosed := hgives.trans (gives_mark ')' .rightParen rfl rfl [])
    have hrow : Gives ((if withDollar then "$" else "") ++ f ++ "(" ++
          ",".intercalate ((a :: args).map Prod.fst) ++ ")").toList
        (optional withDollar (symbol .dollar) ++
          ⟨.identifier, f⟩ :: symbol .leftParen :: (ws ++ [symbol .rightParen])) [] := by
      simpa using (gives_callee withDollar hf _).trans hclosed
    exact .of_gives hrow (.of_primary (.call hderives)) (Nat.lt_succ_of_le hle)

/-! ## Filters -/

/-- The step to the children of one name for which a predicate holds. -/
def childWith (x : String) (p : Predicate) : Expr :=
  .selector (.steps false [.named false (.plain x) p])

/-- The only token of the text is a number without a point. -/
def IsLoneWhole (t : String) : Prop :=
  ∃ number stop, Token.scan t = .ok [number, .eof stop] ∧ number.isWhole = true

theorem isWhole_of_not_isLoneWhole {ts : List Token} (hscan : Token.scan t = .ok ts)
    (ht : ¬ IsLoneWhole t) : ∀ w, ts.dropLast.map Token.word = [w] → w.isWhole = false := by
  intro w hw
  obtain ⟨us, rfl, -⟩ := Token.tokens_of_scan hscan
  rw [List.dropLast_concat] at hw
  obtain ⟨number, rfl, rfl⟩ := List.map_eq_singleton_iff.1 hw
  rw [← Bool.not_eq_true]
  exact fun hwhole => ht ⟨number, _, hscan, hwhole⟩

/-- A name and a bracket. -/
theorem gives_bracket (hx : Name.isFree x = true) (rest : List Char) :
    Gives (x.toList ++ '[' :: rest) [⟨.identifier, x⟩, symbol .leftBracket] rest :=
  (gives_name hx ((Token.delimited_cons '[' rest).2 (by decide))).trans
    (gives_mark '[' .leftBracket rfl rfl rest)

namespace ParsesTo

/-- The words of a name with a text in brackets after it, of which those in the brackets derive a
filter. -/
theorem exists_filter (h : ParsesTo d t e) (ht : ¬ IsLoneWhole t) (hx : Name.isFree x = true) :
    ∃ ws n, (∀ rest, Gives (x.toList ++ '[' :: (t.toList ++ ']' :: rest))
        ([⟨.identifier, x⟩] ++ symbol .leftBracket :: (ws ++ [symbol .rightBracket])) rest) ∧
      Derives .filter ws (.ofExpr e) n ∧ n < d + filterCost := by
  obtain ⟨ts, ws, n, hscan, rfl, hgives, hderives, hlt⟩ := h.exists_derives
  have hlone := isWhole_of_not_isLoneWhole hscan ht
  refine ⟨_, _, fun rest => ?_, .someFilter hderives hlone, Nat.add_lt_add_right hlt filterCost⟩
  have hclosed := (hgives ((Token.stopped_cons ']' rest).2 rfl)).trans
    (gives_mark ']' .rightBracket rfl rfl rest)
  simpa using (gives_bracket hx _).trans hclosed

/-- In the brackets of a step a text is its filter. -/
theorem in_filter (h : ParsesTo d t e) (ht : ¬ IsLoneWhole t) (hx : Name.isFree x = true) :
    ParsesTo (d + filterCost) (x ++ "[" ++ t ++ "]") (childWith x (.filter (.ofExpr e))) := by
  obtain ⟨ws, n, hgives, hfilter, hlt⟩ := h.exists_filter ht hx
  have hchars : (x ++ "[" ++ t ++ "]").toList = x.toList ++ '[' :: (t.toList ++ [']']) := by simp
  refine .of_gives (hchars ▸ hgives []) (.of_child .plainName (.filtered hfilter)) ?_
  rwa [Nat.zero_max]

/-- After the filter there may be an index. -/
theorem in_filter_index (h : ParsesTo d t e) (ht : ¬ IsLoneWhole t) (hx : Name.isFree x = true)
    (i : Index) : ParsesTo (d + filterCost) (x ++ "[" ++ t ++ "][" ++ toString i.toInt ++ "]")
      (childWith x (.filterThenIndex (.ofExpr e) i)) := by
  obtain ⟨ws, n, hgives, hfilter, hlt⟩ := h.exists_filter ht hx
  have hrow : Gives (x ++ "[" ++ t ++ "][" ++ toString i.toInt ++ "]").toList
      ([⟨.identifier, x⟩] ++ symbol .leftBracket :: (ws ++ [symbol .rightBracket,
        symbol .leftBracket, ⟨.number, toString i.toInt⟩, symbol .rightBracket])) [] := by
    simpa using (hgives _).trans (gives_index i)
  refine .of_gives hrow
    (.of_child .plainName (.filteredIndex hfilter (Index.ofText?_toString i))) ?_
  rwa [Nat.zero_max]

end ParsesTo

/-! ## All of them -/

/-- Texts that are parsed under a limit stand for the same trees in brackets, under a limit that is
higher by one for a group, the arguments of a call and a scoped selector, and by four for a filter.
Alone in brackets, a number without a point is an index and no filter. -/
theorem parsesTo_embedded {args : List (String × Expr)} (ht : ParsesTo d t R)
    (hargs : ∀ a ∈ args, ParsesTo d a.1 a.2) (hf : Name.isFree f = true)
    (hx : Name.isFree x = true) (i : Index) :
    ParsesTo (d + 1) ("(" ++ t ++ ")") (.group R) ∧
      ParsesTo (d + 1) (f ++ "(" ++ ",".intercalate (args.map Prod.fst) ++ ")")
        (.call (.mk false f (args.map Prod.snd))) ∧
      ParsesTo (d + 1) ("$" ++ f ++ "(" ++ ",".intercalate (args.map Prod.fst) ++ ")")
        (.call (.mk true f (args.map Prod.snd))) ∧
      (∀ s, R = .selector s → ParsesTo (d + 1) ("$(" ++ t ++ ")") (.selector (.scoped s))) ∧
      (¬ IsLoneWhole t →
        ParsesTo (d + 4) (x ++ "[" ++ t ++ "]") (childWith x (.filter (.ofExpr R))) ∧
        ParsesTo (d + 4) (x ++ "[" ++ t ++ "][" ++ toString i.toInt ++ "]")
          (childWith x (.filterThenIndex (.ofExpr R) i))) := by
  refine ⟨ht.in_group, ?_, parsesTo_call true hf hargs, ?_, fun hlone => ?_⟩
  · simpa using parsesTo_call false hf hargs
  · rintro s rfl
    exact ht.in_scope
  · exact ⟨ht.in_filter hlone hx, ht.in_filter_index hlone hx i⟩

theorem scan_step : Token.scan "/b" = .ok [⟨.slash, "/", 0⟩, ⟨.identifier, "b", 1⟩, .eof 2] := by
  decide +kernel

theorem scan_context : Token.scan "System" = .ok [⟨.systemWord, "System", 0⟩, .eof 6] := by
  decide +kernel

/-- The selector of `/b`. -/
def absoluteStep : Selector :=
  .steps true [.plain false "b"]

/-- A path and a constant in a call, and the path in the other kinds of brackets. -/
theorem parsesTo_embedded_step :
    ParsesTo 1 "/b" (.selector absoluteStep) ∧ ParsesTo 1 "System" (.constant .system) ∧
      ¬ IsLoneWhole "/b" ∧ Name.isFree "f" = true ∧ Name.isFree "x" = true ∧
      ParsesTo 2 "(/b)" (.group (.selector absoluteStep)) ∧
      ParsesTo 2 "$f(/b,System)"
        (.call (.mk true "f" [.selector absoluteStep, .constant .system])) ∧
      ParsesTo 2 "$(/b)" (.selector (.scoped absoluteStep)) ∧
      ParsesTo 5 "x[/b][-3]" (childWith "x" (.filterThenIndex (.selector absoluteStep) (-3))) := by
  have hstep : ParsesTo 1 "/b" (.selector absoluteStep) := by
    rw [ParsesTo, parse_of_scan scan_step]
    rfl
  have hcontext : ParsesTo 1 "System" (.constant .system) := by
    rw [ParsesTo, parse_of_scan scan_context]
    rfl
  have hlone : ¬ IsLoneWhole "/b" := by
    rintro ⟨number, stop, hscan, -⟩
    cases scan_step.symm.trans hscan
  have hargs : ∀ a ∈ [("/b", Expr.selector absoluteStep), ("System", .constant .system)],
      ParsesTo 1 a.1 a.2 := by
    simp [hstep, hcontext]
  have hf : Name.isFree "f" = true := by decide
  have hx : Name.isFree "x" = true := by decide
  obtain ⟨hgroup, -, hcall, hscope, hfilter⟩ := parsesTo_embedded hstep hargs hf hx (-3)
  exact ⟨hstep, hcontext, hlone, hf, hx, hgroup, hcall, hscope _ rfl, (hfilter hlone).2⟩

end MapExpr
