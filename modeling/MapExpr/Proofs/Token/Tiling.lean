import MapExpr.Proofs.Grammar.Language
import MapExpr.Proofs.Token.Munch

/-!
# Tiling

The tokens of a text and the blanks between them are the whole text: every byte of it is in one
token or in one gap, and spans are cut at whole characters.

* `spaced`: tokens with given texts before them, as one text;
* `Laid`: such tokens when they know where they begin, which is all that spans come from;
* `Munches.laid`: what is cut into longest lexemes is laid out so;
* `Span.Covers`, `Tiles`: the bytes of a span, and what the spans of a whole text have to be;
* `tiles_of_scan`: the spans of the tokens that a text is scanned as, and of what it is parsed as.
-/

namespace MapExpr

/-- The span `s` covers the characters `piece` of `text`. -/
structure Span.Covers (text : String) (s : Span) (piece : String) : Prop where
  start_le_stop : s.start ≤ s.stop
  stop_le : s.stop ≤ text.utf8ByteSize
  isValid_start : String.Pos.Raw.IsValid text ⟨s.start⟩
  isValid_stop : String.Pos.Raw.IsValid text ⟨s.stop⟩
  bytes : text.toByteArray.extract s.start s.stop = piece.toByteArray

theorem Span.covers_append (before piece after : String) :
    Covers (before ++ (piece ++ after))
      ⟨before.utf8ByteSize, before.utf8ByteSize + piece.utf8ByteSize⟩ piece where
  start_le_stop := Nat.le_add_right _ _
  stop_le := by
    simp only [String.utf8ByteSize_append]
    omega
  isValid_start := String.Pos.Raw.isValid_iff_exists_append.2 ⟨before, _, rfl, rfl⟩
  isValid_stop := String.Pos.Raw.isValid_iff_exists_append.2
    ⟨before ++ piece, after, by rw [String.append_assoc], by
      simp [String.Pos.Raw.ext_iff, String.utf8ByteSize_append]⟩
  bytes := by
    have hsize : before.utf8ByteSize + piece.utf8ByteSize = (before ++ piece).toByteArray.size := by
      rw [String.size_toByteArray, String.utf8ByteSize_append]
    rw [← String.append_assoc, String.toByteArray_append, hsize,
      ByteArray.extract_append_size_left, String.toByteArray_append]
    exact ByteArray.extract_append_eq_right String.size_toByteArray.symm ByteArray.size_append

namespace Token

/-! ## Tokens in a row -/

/-- The tokens `ts` as one text, each with one of the texts `ws` before it. -/
def spaced : List String → List Token → String
  | w :: ws, t :: ts => w ++ (t.text ++ spaced ws ts)
  | _, _ => ""

/-- The spans between the tokens `ts`, the first of them from byte `offset` on. -/
def gaps : Nat → List Token → List Span
  | _, [] => []
  | offset, t :: ts => ⟨offset, t.start⟩ :: gaps t.span.stop ts

/-- From byte `offset` on, each of the tokens begins where the text before it ends. -/
inductive Laid : Nat → List String → List Token → Prop
  | nil {offset : Nat} : Laid offset [] []
  | cons {offset : Nat} {w : String} {ws : List String} {t : Token} {ts : List Token} :
      t.start = offset + w.utf8ByteSize → Laid t.span.stop ws ts → Laid offset (w :: ws) (t :: ts)

variable {offset : Nat} {text : String} {s : List Char} {ws : List String} {t : Token}
  {ts : List Token}

theorem Laid.offset_le (h : Laid offset ws ts) : ∀ t ∈ ts, offset ≤ t.start := by
  induction h with
  | nil => nofun
  | cons hstart _ ih =>
    refine List.forall_mem_cons.2 ⟨by omega, fun u hu => ?_⟩
    have hstop := ih u hu
    simp only [span] at hstop
    omega

/-- Tokens do not overlap. -/
theorem Laid.pairwise (h : Laid offset ws ts) :
    ts.Pairwise fun t u => t.span.stop ≤ u.span.start := by
  induction h with
  | nil => exact .nil
  | cons _ hlaid ih => exact .cons hlaid.offset_le ih

/-- In a text of tokens in a row, the span of a token covers its text, and the spans between the
tokens cover the texts between them. -/
theorem Laid.covers (before : String) (h : Laid before.utf8ByteSize ws ts) :
    (∀ t ∈ ts, t.span.Covers (before ++ spaced ws ts) t.text) ∧
      List.Forall₂ (Span.Covers (before ++ spaced ws ts)) (gaps before.utf8ByteSize ts) ws := by
  generalize hoffset : before.utf8ByteSize = offset at h
  induction h generalizing before with
  | nil => exact ⟨nofun, .nil⟩
  | @cons offset w ws t ts hstart hlaid ih =>
    obtain rfl := hoffset
    have hgap := Span.covers_append before w (t.text ++ spaced ws ts)
    have htoken := Span.covers_append (before ++ w) t.text (spaced ws ts)
    have hstop : (before ++ w ++ t.text).utf8ByteSize = t.span.stop := by
      simp only [String.utf8ByteSize_append, span, hstart]
    obtain ⟨htokens, hgaps⟩ := ih _ hstop
    simp only [String.utf8ByteSize_append, ← hstart, String.append_assoc]
      at hgap htoken htokens hgaps
    exact ⟨List.forall_mem_cons.2 ⟨htoken, htokens⟩, .cons hgap hgaps⟩

/-- What is cut into longest lexemes is a row of tokens with gaps before them. -/
theorem Munches.laid (h : Munches offset s (.ok ts)) :
    ∃ ws, (∀ w ∈ ws, IsGap w.toList) ∧ Laid offset ws ts ∧ (spaced ws ts).toList = s := by
  generalize hresult : Except.ok ts = result at h
  induction h generalizing ts with
  | @ending offset blanks hblanks =>
    obtain rfl := Except.ok.inj hresult
    refine ⟨[.ofList blanks], by simpa using hblanks, .cons ?_ .nil, by simp [spaced, eof]⟩
    rw [utf8ByteSize_ofList]
    rfl
  | @lexeme offset blanks front rest k result hblanks hlongest _ ih =>
    cases result with
    | error e => cases hresult
    | ok us =>
      obtain rfl := Except.ok.inj hresult
      obtain ⟨ws, hws, hlaid, hspaced⟩ := ih rfl
      refine ⟨.ofList blanks :: ws, List.forall_mem_cons.2 ⟨by simpa using hblanks, hws⟩,
        .cons ?_ ?_, ?_⟩
      · rw [utf8ByteSize_ofList]
      · rwa [span, utf8ByteSize_ofList]
      · simp [spaced, hspaced]
  | openQuote | foreign => cases hresult

/-- The tokens of a text with the gaps before them are the text. -/
theorem laid_of_scan (h : scan text = .ok ts) :
    ∃ ws, (∀ w ∈ ws, IsGap w.toList) ∧ Laid 0 ws ts ∧ text = spaced ws ts := by
  have hmunches := munches_scan text
  rw [h] at hmunches
  obtain ⟨ws, hws, hlaid, hspaced⟩ := hmunches.laid
  exact ⟨ws, hws, hlaid, String.toList_inj.1 hspaced.symm⟩

/-! ## The tokens of a text -/

/-- The tokens `ts` and the gaps between them are the text. -/
structure Tiles (text : String) (ts : List Token) : Prop where
  /-- A token is the part of the text at its span. -/
  covers : ∀ t ∈ ts, t.span.Covers text t.text
  /-- Tokens are in order and do not overlap. -/
  ordered : ts.Pairwise fun t u => t.span.stop ≤ u.span.start
  /-- Only the end marker is empty. -/
  nonempty : ∀ t ∈ ts, t.kind ≠ .eof → t.span.start < t.span.stop
  /-- The end marker is the last token, and there is only one. -/
  ending : ∃ us, ts = us ++ [.eof text.utf8ByteSize] ∧ ∀ t ∈ us, t.kind ≠ .eof
  /-- All else is blank. -/
  blank : ∃ ws, List.Forall₂ (Span.Covers text) (gaps 0 ts) ws ∧ (∀ w ∈ ws, IsGap w.toList) ∧
    text = spaced ws ts

theorem lt_stop_of_scan (h : scan text = .ok ts) :
    ∀ t ∈ ts, t.kind ≠ .eof → t.span.start < t.span.stop := by
  have hlexeme : ∀ {s l}, lexeme? s = some l → String.ofList l.front ≠ "" := by
    intro s l hl hempty
    exact (splits_of_lexeme? hl).2 (String.ofList_eq_empty_iff.1 hempty)
  obtain ⟨us, rfl, hus⟩ := forall_word_of_scan (P := fun w => w.text ≠ "") hlexeme h
  intro t ht hkind
  rcases List.mem_append.1 ht with hmem | hlast
  · refine Nat.lt_add_of_pos_right (Nat.pos_of_ne_zero fun hsize => hus t hmem ?_)
    exact String.utf8ByteSize_eq_zero_iff.1 hsize
  · obtain rfl := List.mem_singleton.1 hlast
    exact absurd rfl hkind

theorem span_of_parse {settings : Settings} {A : Parsed} (h : parse settings text = .ok A) :
    A.span = ⟨0, text.utf8ByteSize⟩ := by
  obtain ⟨ts, n, hscan, -, hderives, hlt⟩ := derives_of_parse h
  have hparse := (parse_of_derives hscan hderives settings).1 hlt
  exact congrArg Parsed.span (Except.ok.inj (h.symm.trans hparse))

/-- The tokens of a text tile it, and whenever it is parsed its span is all of it. -/
theorem tiles_of_scan (h : scan text = .ok ts) : Tiles text ts ∧
    ∀ settings A, parse settings text = .ok A → A.span = ⟨0, text.utf8ByteSize⟩ := by
  refine ⟨?_, fun _ _ => span_of_parse⟩
  obtain ⟨us, hus, hgenuine⟩ := tokens_of_scan h
  obtain ⟨ws, hws, hlaid, htext⟩ := laid_of_scan h
  obtain ⟨htokens, hgaps⟩ := Laid.covers "" hlaid
  rw [String.empty_append, ← htext] at htokens hgaps
  exact {
    covers := htokens
    ordered := hlaid.pairwise
    nonempty := lt_stop_of_scan h
    ending := ⟨us, hus, fun t ht => (hgenuine t ht).kind_ne_eof⟩
    blank := ⟨ws, hgaps, hws, htext⟩ }

theorem scan_twoByteName : scan " né " = .ok [⟨.identifier, "né", 1⟩, .eof 5] := by
  decide +kernel

/-- The name has two characters and three bytes. -/
theorem tiles_twoByteName : Tiles " né " [⟨.identifier, "né", 1⟩, .eof 5] ∧
    ∃ A, parse ⟨1⟩ " né " = .ok A ∧ A.span = ⟨0, 5⟩ := by
  obtain ⟨htiles, hspan⟩ := tiles_of_scan scan_twoByteName
  have hparse : ∃ A, parse ⟨1⟩ " né " = .ok A := by
    rw [parse_of_scan scan_twoByteName]
    exact ⟨_, rfl⟩
  obtain ⟨A, hA⟩ := hparse
  exact ⟨htiles, A, hA, hspan _ A hA⟩

end Token

end MapExpr
