import MapExpr.Proofs.Grammar.Complete
import MapExpr.Proofs.Grammar.Sound
import MapExpr.Proofs.Token.Items

/-!
# The language of the parser

A text is parsed as an expression if and only if its tokens derive it and the limit is above their
nesting; if the limit is not, it is the fault.

* `parse_of_derives`: a derivation decides the parse under every limit;
* `derives_of_parse`: every parse has a derivation;
* `exists_parse_iff_derives`: the texts that are parsed under some limit, and their trees.
-/

namespace MapExpr

open Grammar (Derives)

variable {text : String} {ts : List Token} {settings : Settings}

theorem parse_of_scan (h : Token.scan text = .ok ts) :
    parse settings text = (Parse.ofTokens settings ts).value := by
  simp [parse, h, bind, Except.bind]

theorem parse_of_scan_eq_error {e : ParseError} (h : Token.scan text = .error e)
    (settings : Settings) : parse settings text = .error e := by
  simp [parse, h, bind, Except.bind]

/-- A text of tokens is parsed as the run over them accepts it. -/
theorem parse_eq_ok_iff {parsed : Parsed} (h : Token.scan text = .ok ts) :
    parse settings text = .ok parsed ↔
      Parse.start.run settings.maxDepth ts = .ok (.accepted parsed) := by
  rw [parse_of_scan h, Parse.ofTokens_eq_ok_iff]

/-- The words of a text with their nesting decide what it is parsed as. -/
theorem parse_of_derives {e : Expr} {n : Nat} (hscan : Token.scan text = .ok ts)
    (h : Derives .expression (ts.dropLast.map Token.word) e n) (settings : Settings) :
    (n < settings.maxDepth → parse settings text = .ok ⟨e, ⟨0, text.utf8ByteSize⟩⟩) ∧
      (settings.maxDepth ≤ n →
        ∃ o, parse settings text = .error (.depthExceeded o settings.maxDepth)) := by
  obtain ⟨us, rfl, -⟩ := Token.tokens_of_scan hscan
  rw [List.dropLast_concat] at h
  obtain ⟨haccept, hrefuse⟩ := run_start text.utf8ByteSize settings.maxDepth h
  rw [parse_of_scan hscan]
  refine ⟨fun hlimit => Parse.ofTokens_eq_ok_iff.2 (haccept hlimit), fun hlimit => ?_⟩
  obtain ⟨o, hrun⟩ := hrefuse hlimit
  exact ⟨o, Parse.ofTokens_eq_error hrun⟩

/-- A text that is parsed has a derivation that nests less than the limit. -/
theorem derives_of_parse {parsed : Parsed} (h : parse settings text = .ok parsed) :
    ∃ ts n, Token.scan text = .ok ts ∧ (∀ w ∈ ts.dropLast.map Token.word, w.IsGenuine) ∧
      Derives .expression (ts.dropLast.map Token.word) parsed.root n ∧ n < settings.maxDepth := by
  cases hscan : Token.scan text with
  | error e => simp [parse, hscan, bind, Except.bind] at h
  | ok ts =>
    obtain ⟨us, rfl, hus⟩ := Token.tokens_of_scan hscan
    have hrun := h
    rw [parse_of_scan hscan, Parse.ofTokens_eq_ok_iff] at hrun
    obtain ⟨n, hderives⟩ :=
      Parse.derives_of_accepted (fun t ht => (hus t ht).kind_ne_eof) hrun
    have hlast : (us ++ [Token.eof text.utf8ByteSize]).dropLast = us := List.dropLast_concat
    rw [← hlast] at hderives hus
    refine ⟨_, n, rfl, List.forall_mem_map.2 hus, hderives, ?_⟩
    · by_contra hlimit
      obtain ⟨o, herror⟩ := (parse_of_derives hscan hderives settings).2 (Nat.le_of_not_lt hlimit)
      rw [h] at herror
      cases herror

/-- The parser accepts exactly its grammar: a scanned text is parsed as an expression under some
limit if and only if the tokens before the end marker derive it. -/
theorem exists_parse_iff_derives (h : Token.scan text = .ok ts) (e : Expr) :
    (∃ settings parsed, parse settings text = .ok parsed ∧ parsed.root = e) ↔
      ∃ n, Derives .expression (ts.dropLast.map Token.word) e n := by
  constructor
  · rintro ⟨settings, parsed, hparse, rfl⟩
    obtain ⟨us, n, hscan, -, hderives, -⟩ := derives_of_parse hparse
    obtain rfl := Except.ok.inj (h.symm.trans hscan)
    exact ⟨n, hderives⟩
  · rintro ⟨n, hderives⟩
    exact ⟨⟨n + 1⟩, _, (parse_of_derives h hderives ⟨n + 1⟩).1 (Nat.lt_succ_self n), rfl⟩

/-! ## A step with two indexes -/

/-- The tree of `a[1][2]`. -/
def twoIndexes : Expr :=
  .selector (.steps false [.named false (.plain "a")
    (.filterThenIndex (.operator (.constant (.number (.ofInt 1)))) 2)])

theorem scan_twoIndexes : Token.scan "a[1][2]" =
    .ok [⟨.identifier, "a", 0⟩, ⟨.leftBracket, "[", 1⟩, ⟨.number, "1", 2⟩, ⟨.rightBracket, "]", 3⟩,
      ⟨.leftBracket, "[", 4⟩, ⟨.number, "2", 5⟩, ⟨.rightBracket, "]", 6⟩, .eof 7] := by
  decide +kernel

theorem derives_twoIndexes :
    Derives .expression [⟨.identifier, "a"⟩, ⟨.leftBracket, "["⟩, ⟨.number, "1"⟩,
      ⟨.rightBracket, "]"⟩, ⟨.leftBracket, "["⟩, ⟨.number, "2"⟩, ⟨.rightBracket, "]"⟩]
      twoIndexes 0 :=
  have hindexes : Derives .predicate [⟨.leftBracket, "["⟩, ⟨.number, "1"⟩, ⟨.rightBracket, "]"⟩,
      ⟨.leftBracket, "["⟩, ⟨.number, "2"⟩, ⟨.rightBracket, "]"⟩] _ 0 :=
    .doubleIndex (i := 1) (j := 2) (by decide) (by decide)
  .of_child .plainName hindexes

/-- The first index is a filter. -/
theorem exists_parse_twoIndexes :
    ∃ settings parsed, parse settings "a[1][2]" = .ok parsed ∧ parsed.root = twoIndexes :=
  (exists_parse_iff_derives scan_twoIndexes _).2 ⟨0, derives_twoIndexes⟩

end MapExpr
