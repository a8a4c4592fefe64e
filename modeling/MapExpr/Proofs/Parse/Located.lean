import MapExpr.Proofs.Parse.Faults
import MapExpr.Proofs.Token.Tiling

/-!
# What an error says of the text

An error can be checked against the text. It is that of the scan, at a character with which no token
begins, or it is at one token of the text and says what that token is or what the limit is.

* `ParseError.IsAt`: an error at a character;
* `Token.Munches.exists_fault`, `Token.isAt_of_scan`: the fault of a scan;
* `located_of_parse`: the errors of a parse.
-/

namespace MapExpr

/-- The error `e` is at the character `c` of the text, which it names unless it is an open quote. -/
structure ParseError.IsAt (text : String) (c : Char) (e : ParseError) : Prop where
  offset_lt : e.offset < text.utf8ByteSize
  isValid : String.Pos.Raw.IsValid text ⟨e.offset⟩
  covers : Span.Covers text ⟨e.offset, e.offset + c.utf8Size⟩ (.singleton c)
  names : e = .unexpectedChar e.offset c ∨
    e = .unterminatedLiteral e.offset ∧ (c = '\x27' ∨ c = '"')

namespace Token

variable {offset : Nat} {s : List Char} {text : String} {ts : List Token} {e : ParseError}

/-- The fault of what is cut into lexemes is that of a character where a lexeme should begin. -/
theorem Munches.exists_fault (h : Munches offset s (.error e)) :
    ∃ before c after, s = before ++ c :: after ∧ e.offset = offset + byteCount before ∧
      (e = .unexpectedChar e.offset c ∨
        e = .unterminatedLiteral e.offset ∧ (c = '\x27' ∨ c = '"')) := by
  generalize hresult : Except.error e = result at h
  induction h with
  | ending => cases hresult
  | @lexeme offset blanks front rest k result _ _ _ ih =>
    cases result with
    | ok ts => cases hresult
    | error e' =>
      obtain rfl := Except.error.inj hresult
      obtain ⟨before, c, after, rfl, hoffset, hnames⟩ := ih rfl
      refine ⟨blanks ++ (front ++ before), c, after, by simp, ?_, hnames⟩
      rw [hoffset, byteCount_append, byteCount_append]
      omega
  | @openQuote offset blanks rest c _ hquote =>
    obtain rfl := Except.error.inj hresult
    exact ⟨blanks, c, rest, rfl, rfl, .inr ⟨rfl, hquote⟩⟩
  | @foreign offset blanks rest c =>
    obtain rfl := Except.error.inj hresult
    exact ⟨blanks, c, rest, rfl, rfl, .inl rfl⟩

/-- The fault of a scan is at a character of the text. -/
theorem isAt_of_scan (h : scan text = .error e) : ∃ c, e.IsAt text c := by
  have hmunches := munches_scan text
  rw [h] at hmunches
  obtain ⟨before, c, after, htext, hoffset, hnames⟩ := hmunches.exists_fault
  have hsplit : text = .ofList before ++ (.singleton c ++ .ofList after) := by
    rw [← String.toList_inj, htext]
    simp
  have hcovers := Span.covers_append (.ofList before) (.singleton c) (.ofList after)
  rw [← hsplit, String.utf8ByteSize_singleton, utf8ByteSize_ofList,
    ← Nat.zero_add (byteCount before), ← hoffset] at hcovers
  have hpos := Char.utf8Size_pos c
  have hstop : e.offset + c.utf8Size ≤ text.utf8ByteSize := hcovers.stop_le
  exact ⟨c, by omega, hcovers.isValid_start, hcovers, hnames⟩

/-- The token at a place of the text is the only one there. -/
theorem filter_start_of_scan {t : Token} (h : scan text = .ok ts) (ht : t ∈ ts) :
    ts.filter (·.span.start == t.start) = [t] := by
  obtain ⟨before, after, rfl⟩ := List.append_of_mem ht
  have hpairwise := pairwise_start_of_scan h
  rw [List.pairwise_append, List.pairwise_cons] at hpairwise
  obtain ⟨-, ⟨hafter, -⟩, hbefore⟩ := hpairwise
  have hnone : ∀ {us : List Token}, (∀ u ∈ us, u.start ≠ t.start) →
      us.filter (·.span.start == t.start) = [] := by
    intro us hus
    exact List.filter_eq_nil_iff.2 fun u hu heq => hus u hu (eq_of_beq heq)
  have hleft := hnone fun u hu => Nat.ne_of_lt (hbefore u hu t List.mem_cons_self)
  have hright := hnone fun u hu => (Nat.ne_of_lt (hafter u hu)).symm
  rw [List.filter_append, hleft, List.nil_append, List.filter_cons_of_pos (by simp [span]), hright]

end Token

/-- An error of a parse is the fault of the scan, at a character of the text, or the text is tokens
and it is at exactly one of them: that token is not what is expected, or begins what is nested more
deeply than the limit. -/
theorem located_of_parse {settings : Settings} {text : String} {e : ParseError}
    (h : parse settings text = .error e) :
    (Token.scan text = .error e ∧ ∃ c, e.IsAt text c) ∨
      ∃ ts t, Token.scan text = .ok ts ∧ ts.filter (·.span.start == e.offset) = [t] ∧
        ((∃ x : Parse.Expectation, e = .unexpectedToken t.start x.text t.describe) ∨
          e = .depthExceeded t.start settings.maxDepth) := by
  cases hscan : Token.scan text with
  | error e' =>
    obtain rfl := Except.error.inj ((parse_of_scan_eq_error hscan settings).symm.trans h)
    exact .inl ⟨rfl, Token.isAt_of_scan hscan⟩
  | ok ts =>
    rw [parse_eq_error_iff hscan] at h
    obtain ⟨t, ht, hblames⟩ := Parse.exists_blamed_of_run (isGenuine_of_mem_dropLast hscan) h
    refine .inr ⟨ts, t, rfl, ?_, hblames.symm⟩
    rw [hblames.offset_eq]
    exact Token.filter_start_of_scan hscan ht

theorem scan_doubleClose : Token.scan "né))" =
    .ok [⟨.identifier, "né", 0⟩, ⟨.rightParen, ")", 3⟩, ⟨.rightParen, ")", 4⟩, .eof 5] := by
  decide +kernel

theorem parse_doubleClose :
    parse ⟨9⟩ "né))" = .error (.unexpectedToken 3 "end of input" "')'") := by
  rw [parse_of_scan scan_doubleClose]
  rfl

/-- The name has two characters and three bytes, and of the two parentheses after it the first one
is to blame. -/
theorem located_doubleClose :
    parse ⟨9⟩ "né))" = .error (.unexpectedToken 3 "end of input" "')'") ∧
      ∃ ts t, Token.scan "né))" = .ok ts ∧ ts.filter (·.span.start == 3) = [t] ∧
        t.describe = "')'" := by
  refine ⟨parse_doubleClose, ?_⟩
  rcases located_of_parse parse_doubleClose with ⟨hscan, -⟩ | ⟨ts, t, hscan, ht, hnames | hlimit⟩
  · cases hscan.symm.trans scan_doubleClose
  · obtain ⟨x, hx⟩ := hnames
    exact ⟨ts, t, hscan, ht, (ParseError.unexpectedToken.inj hx).2.2.symm⟩
  · cases hlimit

end MapExpr
