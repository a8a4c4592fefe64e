import MapExpr.Proofs.Descent.Calls
import MapExpr.Proofs.Descent.Mirrors.Operators
import MapExpr.Proofs.Descent.Scanner
import MapExpr.Proofs.Token.Calls
import MapExpr.Proofs.Token.Spacing

/-!
# Safety of descents

What a program that parses by descent relies on. A descent over a text ends as the parser does, so
none of the ends that no text has is ever reached; and what holds of all the calls in a descent.

* `constants_of_scan`: what is known of the tokens that constants are made of;
* `Descent.parse`, `parse_result`: a descent over a text, and that it ends as the parser does;
* `parse_stops`: every cut is good, and no branch that guards against the impossible is taken;
* `depth_of_nested`: the count of levels does not overflow and is given back;
* `progresses_of_inside`: every rule makes progress and stops at the end marker.
-/

namespace MapExpr

open Token (IsLiteral IsNumber)

/-! ## The tokens of a text -/

/-- The quotes are one byte each, so what stands between them can be cut out. -/
theorem Token.IsLiteral.slice? {text : String} (h : IsLiteral text.toList) :
    Span.slice? text ⟨1, text.utf8ByteSize - 1⟩ = some (Parse.unquoted text) := by
  generalize hs : text.toList = s at h
  obtain rfl : text = .ofList s := by rw [← hs, String.ofList_toList]
  cases h with
  | @quoted quote contents hquote hmem =>
    have hquoteSize : (String.ofList [quote]).utf8ByteSize = 1 := by
      rcases hquote with rfl | rfl <;> rfl
    have htext : String.ofList (quote :: contents ++ [quote]) =
        .ofList [quote] ++ (.ofList contents ++ .ofList [quote]) := by
      simp only [← String.ofList_append, List.cons_append, List.nil_append]
    have hsize : (String.ofList (quote :: contents ++ [quote])).utf8ByteSize - 1 =
        1 + (String.ofList contents).utf8ByteSize := by
      simp only [htext, String.utf8ByteSize_append, hquoteSize]
      omega
    have hslice := Span.slice?_append (.ofList [quote]) (.ofList contents) (.ofList [quote])
    rw [hsize, unquoted_between, htext]
    rwa [hquoteSize] at hslice

/-- In the tokens of a text, literals stand between quotes and numbers are read as decimals. -/
theorem constants_of_scan {text : String} {tokens : List Token}
    (h : Token.scan text = .ok tokens) : ∀ t ∈ tokens,
      (t.kind = .literal → IsLiteral t.text.toList) ∧
      (t.kind = .number → IsNumber t.text.toList ∧ (Decimal.ofText? t.text).isSome = true) := by
  obtain ⟨body, rfl, hbody⟩ := Token.forall_word_of_scan
    (P := fun w => Token.Belongs w.kind w.text.toList ∧ w.IsGenuine)
    (fun hl => ⟨by simpa using Token.belongs_of_lexeme? hl, Token.isGenuine_lexeme hl⟩) h
  refine List.forall_mem_append.2 ⟨fun t ht => ?_, by simp [Token.eof]⟩
  obtain ⟨hbelongs, hgenuine⟩ := hbody t ht
  simp only [Token.kind_word, Token.text_word] at hbelongs
  refine ⟨fun hkind => ?_, fun hkind => ⟨?_, ?_⟩⟩
  · rw [hkind] at hbelongs
    exact hbelongs.isLiteral
  · rw [hkind] at hbelongs
    exact hbelongs.isNumber
  · simpa only [Word.IsGenuine, Token.kind_word, Token.text_word, hkind] using hgenuine

namespace Descent

variable {text : String} {tokens : List Token} {inp : Input}

theorem marked_of_scan (h : Token.scan text = .ok tokens) (limit : Nat) :
    Input.Marked ⟨tokens, .eof text.utf8ByteSize, limit⟩ := by
  obtain ⟨body, rfl, hbody⟩ := Token.tokens_of_scan h
  exact ⟨⟨body, rfl, fun t ht => (hbody t ht).kind_ne_eof⟩, rfl⟩

theorem isReadable_of_scan (h : Token.scan text = .ok tokens) : ∀ t ∈ tokens, t.IsReadable :=
  fun t ht => ⟨fun hkind => ((constants_of_scan h t ht).2 hkind).2,
    fun hkind => ((constants_of_scan h t ht).1 hkind).slice?⟩

/-- There is a byte for each token but the end marker. -/
theorem length_le_of_scan (h : Token.scan text = .ok tokens) :
    tokens.length ≤ text.utf8ByteSize + 1 := by
  obtain ⟨body, rfl, hbody⟩ := Token.tokens_of_scan h
  have hitems := Token.scan_eq_ok_iff.1 h
  rw [List.map_append] at hitems
  have hle := Token.Stream.length_le_of_items hitems fun t ht => (hbody t ht).kind_ne_eof
  simpa [Token.Stream.ofString, Token.Stream.left, Token.byteCount_toList] using hle

/-- Reads a text by descent. -/
def parse (settings : Settings) (text : String) : Run Parsed :=
  match scan text with
  | .ok tokens => ofTokens settings tokens
  | .error why => ⟨.error why, ⟨0, 0⟩, []⟩

/-- A descent over a text ends as the parser does. -/
theorem parse_result (settings : Settings) (text : String) :
    (parse settings text).result = (MapExpr.parse settings text).mapError .fault := by
  rw [parse, scan_eq]
  cases h : Token.scan text with
  | error e =>
    rw [parse_of_scan_eq_error h]
    rfl
  | ok tokens =>
    have hmarked := marked_of_scan h settings.maxDepth
    rw [parse_of_scan h, ← ofTokens_result hmarked (isReadable_of_scan h)]
    rfl

/-- A descent over a text stops with a value or a fault of the text. So it makes no cut that is bad,
takes no branch that only guards against the impossible, and is given levels enough; and the tokens
are what the cuts and the readers of numbers rely on. -/
theorem parse_stops (settings : Settings) (text : String) :
    (parse settings text).result = (MapExpr.parse settings text).mapError .fault ∧
    (∀ why, (parse settings text).result = .error why → ∃ e, why = .fault e) ∧
    ∀ tokens, scan text = .ok tokens → ∀ t ∈ tokens,
      (t.kind = .literal → IsLiteral t.text.toList ∧
        Span.Covers t.text ⟨1, t.text.utf8ByteSize - 1⟩ (Parse.unquoted t.text)) ∧
      (t.kind = .number → IsNumber t.text.toList ∧ (Decimal.ofText? t.text).isSome = true) := by
  refine ⟨parse_result settings text, fun why hwhy => ?_, fun tokens hscan t ht => ?_⟩
  · rw [parse_result] at hwhy
    cases hparse : MapExpr.parse settings text with
    | ok parsed => simp [hparse, Except.mapError] at hwhy
    | error e => exact ⟨e, by simpa [hparse, Except.mapError] using hwhy.symm⟩
  · have hscan := scan_eq_ok_iff.1 hscan
    obtain ⟨hliteral, hnumber⟩ := constants_of_scan hscan t ht
    exact ⟨fun hkind => ⟨hliteral hkind, Span.slice?_eq_some_iff.1 (hliteral hkind).slice?⟩,
      hnumber⟩

/-- A literal with a character of two bytes and a number without a fraction. -/
theorem scan_argument : scan "f('é', -3.)" = .ok [⟨.identifier, "f", 0⟩, ⟨.leftParen, "(", 1⟩,
    ⟨.literal, "'é'", 2⟩, ⟨.comma, ",", 6⟩, ⟨.number, "-3.", 8⟩, ⟨.rightParen, ")", 11⟩, .eof 12] :=
  scan_eq_ok_iff.2 (by decide +kernel)

theorem parse_stops_argument :
    (parse ⟨9⟩ "f('é', -3.)").result = (MapExpr.parse ⟨9⟩ "f('é', -3.)").mapError .fault ∧
    IsLiteral "'é'".toList ∧ Span.Covers "'é'" ⟨1, 3⟩ "é" ∧ IsNumber "-3.".toList := by
  obtain ⟨hresult, -, htokens⟩ := parse_stops ⟨9⟩ "f('é', -3.)"
  have hliteral := (htokens _ scan_argument ⟨.literal, "'é'", 2⟩ (by simp)).1 rfl
  have hnumber := (htokens _ scan_argument ⟨.number, "-3.", 8⟩ (by simp)).2 rfl
  exact ⟨hresult, hliteral.1, hliteral.2, hnumber.1⟩

/-! ## Levels and progress -/

/-- At every place where a descent over a text enters brackets, the levels that are entered are
bounded by the limit and by the tokens taken, their sum with those of the brackets is a word of 64
bits, and the brackets are left as they were entered. -/
theorem depth_of_nested (settings : Settings) {text : String} (htext : text.utf8ByteSize < 2 ^ 61) :
    (parse settings text).result = (MapExpr.parse settings text).mapError .fault ∧
    ∀ root ∈ (parse settings text).calls, ∀ d : Activation, d.Inside root →
      ∀ cost, d.rule = .nested cost →
        d.entry.depth ≤ settings.maxDepth ∧ d.entry.depth ≤ 4 * d.entry.pos + 1 ∧
        d.entry.depth + cost < 2 ^ 64 ∧ d.exit.depth = d.entry.depth := by
  refine ⟨parse_result settings text, fun root hroot d hd cost hcost => ?_⟩
  cases hscan : scan text with
  | error why => simp [parse, hscan] at hroot
  | ok tokens =>
    have hmarked := marked_of_scan (scan_eq_ok_iff.1 hscan) settings.maxDepth
    have hlength := length_le_of_scan (scan_eq_ok_iff.1 hscan)
    rw [parse, hscan] at hroot
    simp only [ofTokens, hmarked.getLast?_tokens] at hroot
    obtain ⟨hlocal, hshallow⟩ := (called_start hmarked).shallow root hroot d hd
    have hpos := hshallow.depth_le_pos
    have hplace : d.entry.pos ≤ tokens.length - 1 :=
      Nat.le_trans (Nat.le_trans (Nat.le_add_right _ _) hlocal.anyway) hlocal.exit_le
    rw [hcost, Rule.slack] at hpos
    exact ⟨hshallow.depth_le_limit, by omega, by omega, hlocal.depth_exit⟩

theorem scan_group : scan "(a)" = .ok [⟨.leftParen, "(", 0⟩, ⟨.identifier, "a", 1⟩,
    ⟨.rightParen, ")", 2⟩, .eof 3] :=
  scan_eq_ok_iff.2 (by decide +kernel)

/-- The parentheses of a group are four calls within the call for the whole text. -/
theorem calls_group : ∃ main ∈ (parse ⟨2 ^ 64 - 1⟩ "(a)").calls, ∃ outer ∈ main.inner,
    ∃ whole ∈ outer.inner, ∃ operand ∈ whole.inner, ∃ d ∈ operand.inner,
      d.rule = .nested 1 ∧ d.entry = ⟨1, 1⟩ := by
  simp only [parse, scan_group]
  decide +kernel

theorem depth_of_nested_group : "(a)".utf8ByteSize < 2 ^ 61 ∧
    ∃ root ∈ (parse ⟨2 ^ 64 - 1⟩ "(a)").calls, ∃ d : Activation, d.Inside root ∧
      d.rule = .nested 1 ∧ d.entry = ⟨1, 1⟩ ∧ d.entry.depth + 1 < 2 ^ 64 ∧ d.exit.depth = 1 := by
  have htext : "(a)".utf8ByteSize < 2 ^ 61 := by decide
  obtain ⟨root, hroot, outer, houter, whole, hwhole, operand, hoperand, d, hd, hrule, hentry⟩ :=
    calls_group
  have hinside : d.Inside root :=
    .head hd (.head hoperand (.head hwhole (.head houter .refl)))
  obtain ⟨-, -, hsum, hexit⟩ :=
    (depth_of_nested ⟨2 ^ 64 - 1⟩ htext).2 root hroot d hinside 1 hrule
  exact ⟨htext, root, hroot, d, hinside, hrule, hentry, hsum, by rw [hexit, hentry]⟩

/-- The rules of a descent are the parser, if constants can be made of the tokens; and every rule,
called at any place up to the end marker, ends if there are more levels of recursion than tokens to
come, and every call that is made in it makes progress. -/
theorem progresses_of_inside (hinp : inp.Marked) :
    (inp.Readable → (ofTokens ⟨inp.limit⟩ inp.tokens).result =
      (Parse.ofTokens ⟨inp.limit⟩ inp.tokens).value.mapError .fault) ∧
    ∀ (request : Request) (c : Cursor) (n : Nat), c.pos ≤ inp.last → inp.last - c.pos < n →
      (request.perform inp (inp.inner n) c).result ≠ .error .exhausted ∧
      ∃ call : Activation, (request.perform inp (inp.inner n) c).IsCall request.rule c call ∧
        ∀ d : Activation, d.Inside call → d.Progresses inp := by
  refine ⟨fun hread => ofTokens_result hinp hread, fun request c n hc hn => ?_⟩
  have hcalled := request.called hinp (ready_inner hinp hn hc) hc
  obtain ⟨call, hcall, hsound⟩ := hcalled.exists_isCall
  refine ⟨hcalled.ne_exhausted, call, hcall, fun d hd => ?_⟩
  exact Activation.Sound.progresses fun e he => hsound e (he.trans hd)

/-- The brackets of `a[b]`, seven levels deep: three tokens are to come, and four levels of
recursion are more than that. -/
theorem progresses_of_inside_brackets :
    let inp : Input := ⟨[⟨.identifier, "a", 0⟩, ⟨.leftBracket, "[", 1⟩, ⟨.identifier, "b", 2⟩,
      ⟨.rightBracket, "]", 3⟩, .eof 4], .eof 4, 2 ^ 64 - 1⟩
    inp.Marked ∧ inp.Readable ∧ (ofTokens ⟨inp.limit⟩ inp.tokens).result =
      (Parse.ofTokens ⟨inp.limit⟩ inp.tokens).value.mapError .fault ∧
    (Request.predicate.perform inp (inp.inner 4) ⟨1, 7⟩).result ≠ .error .exhausted ∧
    ∃ call : Activation,
      (Request.predicate.perform inp (inp.inner 4) ⟨1, 7⟩).IsCall .predicate ⟨1, 7⟩ call ∧
      ∀ d : Activation, d.Inside call → d.Progresses inp := by
  intro inp
  have hinp : inp.Marked := ⟨⟨inp.tokens.dropLast, rfl, by decide⟩, rfl⟩
  have hkinds : ∀ t ∈ inp.tokens, t.kind ≠ .number ∧ t.kind ≠ .literal := by decide
  have hread : inp.Readable := fun t ht =>
    ⟨fun hnumber => absurd hnumber (hkinds t ht).1, fun hquoted => absurd hquoted (hkinds t ht).2⟩
  obtain ⟨hresult, hrequests⟩ := progresses_of_inside hinp
  exact ⟨hinp, hread, hresult hread, hrequests .predicate _ _ (by decide) (by decide)⟩

end Descent

end MapExpr
