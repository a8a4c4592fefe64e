import MapExpr.Proofs.Descent.Basic
import MapExpr.Proofs.Token.Slice

/-!
# Scanning by bytes

A text can also be scanned with nothing but what is left of it: where that begins is the difference
of two lengths in bytes, and a token is cut off its front at such a difference. A difference below
zero and a cut inside a character are ends that no text has.

* `Scanner.next`: the next token and the scanner after it;
* `Scanner.collect`: the tokens of a text up to its first fault;
* `Scanner.scan_eq`: they are the tokens that a stream gives.
-/

namespace MapExpr.Descent

open Token (isBlank lexeme? byteCount)

/-- What is left of a text. -/
structure Scanner where
  source : String
  rest : String
  /-- The end marker or a fault has been given. -/
  done : Bool

namespace Scanner

def ofString (text : String) : Scanner :=
  ⟨text, text, false⟩

/-- What is left of `whole` in front of its last `tail` bytes. -/
def difference (whole tail : Nat) : Except Stop Nat :=
  if tail ≤ whole then .ok (whole - tail) else .error .badCut

/-- The byte at which what is left begins. -/
def offset (s : Scanner) : Except Stop Nat :=
  difference s.source.utf8ByteSize s.rest.utf8ByteSize

/-- Passes over the blanks in front. -/
def skipBlanks (s : Scanner) : Scanner :=
  { s with rest := .ofList (s.rest.toList.dropWhile isBlank) }

/-- What `text` is in front of `rest`. -/
def cutOff (text rest : String) : Except Stop String := do
  let stop ← difference text.utf8ByteSize rest.utf8ByteSize
  match Span.slice? text ⟨0, stop⟩ with
  | some front => .ok front
  | none => .error .badCut

/-- Why no token can be made of what is left. -/
def fault (s : Scanner) : Except Stop ParseError := do
  let start ← s.offset
  match s.rest.toList with
  | c :: _ => .ok (Token.fault start c)
  | [] => .error (.fallback .emptyRest)

/-- What comes next in a text without blanks in front. -/
def token (s : Scanner) : Except Stop (Token × Scanner) := do
  let start ← s.offset
  if s.rest = "" then
    .ok (⟨.eof, "", start⟩, { s with done := true })
  else
    match lexeme? s.rest.toList with
    | some l =>
      let rest := String.ofList l.rest
      let text ← cutOff s.rest rest
      .ok (⟨l.kind, text, start⟩, { s with rest := rest })
    | none => do
      let e ← s.fault
      .error (.fault e)

/-- The tokens up to the end marker or the first fault, no more than `n` of them. -/
def collect : Nat → Scanner → Except Stop (List Token)
  | 0, _ => .error .exhausted
  | n + 1, s =>
    if s.done then .ok []
    else do
      let (t, s) ← s.skipBlanks.token
      let ts ← collect n s
      .ok (t :: ts)

end Scanner

/-- Scans a text, with a token for each of its characters, one for the end and one more call. -/
def scan (text : String) : Except Stop (List Token) :=
  (Scanner.ofString text).collect (text.length + 2)

/-! ## Scanners and streams -/

namespace Scanner

variable {before s rest : List Char} {n : Nat}

theorem difference_of_append (before after : String) :
    difference (before ++ after).utf8ByteSize after.utf8ByteSize = .ok before.utf8ByteSize := by
  rw [difference, String.utf8ByteSize_append, if_pos (Nat.le_add_left _ _), Nat.add_sub_cancel]

theorem cutOff_append (front rest : String) : cutOff (front ++ rest) rest = .ok front := by
  have hslice := Span.slice?_append "" front rest
  rw [String.empty_append, String.utf8ByteSize_empty, Nat.zero_add] at hslice
  simp only [cutOff, difference_of_append, bind, Except.bind, hslice]

/-- The scanner of which `s` is left after `before`. -/
def after (before s : List Char) : Scanner :=
  ⟨.ofList (before ++ s), .ofList s, false⟩

theorem skipBlanks_after : (after before s).skipBlanks =
    after (before ++ s.takeWhile isBlank) (s.dropWhile isBlank) := by
  simp [skipBlanks, after]

theorem offset_after : (after before s).offset = .ok (byteCount before) := by
  rw [offset, after, String.ofList_append, difference_of_append, Token.utf8ByteSize_ofList]

theorem token_after_nil : (after before []).token =
    .ok (.eof (byteCount before), { after before [] with done := true }) := by
  rw [token, offset_after]
  rfl

theorem rest_after_ne (c : Char) : (after before (c :: s)).rest ≠ "" := by
  intro h
  simpa [after] using congrArg String.toList h

theorem token_after_lexeme {c : Char} {l : Token.Lexeme} (h : lexeme? (c :: s) = some l) :
    (after before (c :: s)).token = .ok (⟨l.kind, .ofList l.front, byteCount before⟩,
      after (before ++ l.front) l.rest) := by
  have hlist : (after before (c :: s)).rest.toList = c :: s := String.toList_ofList
  have hsplit : c :: s = l.front ++ l.rest := (Token.splits_of_lexeme? h).1.symm
  have hcut : cutOff (after before (c :: s)).rest (.ofList l.rest) = .ok (.ofList l.front) := by
    rw [hsplit]
    exact (congrArg (cutOff · _) String.ofList_append).trans (cutOff_append _ _)
  have hnext : { after before (c :: s) with rest := .ofList l.rest } =
      after (before ++ l.front) l.rest := by
    rw [hsplit, after, after, List.append_assoc]
  simp only [token, offset_after, bind, Except.bind, if_neg (rest_after_ne c), hlist, h, hcut,
    hnext]

theorem token_after_fault {c : Char} (h : lexeme? (c :: s) = none) :
    (after before (c :: s)).token = .error (.fault (Token.fault (byteCount before) c)) := by
  have hlist : (after before (c :: s)).rest.toList = c :: s := String.toList_ofList
  simp only [token, fault, offset_after, bind, Except.bind, if_neg (rest_after_ne c), hlist, h]

/-- A scanner gives what a stream gives. -/
theorem collect_after (hn : s.length + 2 ≤ n) : (after before s).collect n =
    (Token.Stream.reading (byteCount before) s).collect.mapError .fault := by
  induction n generalizing before s with
  | zero => omega
  | succ n ih =>
    have hbytes : byteCount (before ++ s.takeWhile isBlank) =
        byteCount before + byteCount (s.takeWhile isBlank) := Token.byteCount_append _ _
    have hlength : (s.dropWhile isBlank).length ≤ s.length :=
      (List.dropWhile_suffix isBlank).length_le
    have hdone : (after before s).done = false := rfl
    rw [collect, hdone, skipBlanks_after]
    cases hs : s.dropWhile isBlank with
    | nil =>
      -- the end marker, and the call after it, which gives nothing
      obtain ⟨n, rfl⟩ : ∃ m, n = m + 1 := ⟨n - 1, by omega⟩
      have htake : s.takeWhile isBlank = s := by
        simpa [hs] using List.takeWhile_append_dropWhile (p := isBlank) (l := s)
      rw [Token.Stream.collect_eof hs, token_after_nil, hbytes, htake]
      rfl
    | cons c s' =>
      cases hl : lexeme? (c :: s') with
      | none =>
        rw [Token.Stream.collect_fault hs hl, token_after_fault hl, hbytes]
        rfl
      | some l =>
        obtain ⟨hcut, hne⟩ := Token.splits_of_lexeme? hl
        have hshort : l.rest.length + 2 ≤ n := by
          have hpos := List.length_pos_iff.2 hne
          rw [hs, ← hcut, List.length_append] at hlength
          omega
        rw [Token.Stream.collect_lexeme hs hl, token_after_lexeme hl, hbytes]
        simp only [Bool.false_eq_true, ↓reduceIte, bind, Except.bind, ih hshort]
        rw [Token.byteCount_append, hbytes]
        cases Token.Stream.collect _ <;> rfl

end Scanner

/-- Every text is scanned as a stream reads it. -/
theorem scan_eq (text : String) : scan text = (Token.scan text).mapError .fault := by
  have hstart : Scanner.ofString text = .after [] text.toList := by
    simp [Scanner.ofString, Scanner.after]
  rw [scan, hstart, Scanner.collect_after (by rw [String.length_toList])]
  rfl

theorem scan_eq_ok_iff {text : String} {tokens : List Token} :
    scan text = .ok tokens ↔ Token.scan text = .ok tokens := by
  rw [scan_eq]
  cases Token.scan text <;> simp [Except.mapError]

end MapExpr.Descent
