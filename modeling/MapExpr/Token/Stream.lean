import MapExpr.ParseError
import MapExpr.Token.Lexeme

/-!
# Token streams

A text read as tokens, one at a time. Blanks (space, tab, line feed and carriage return) separate
tokens and are none themselves; the end marker or the first fault is the last item.

* `Stream.next?`: the next item and the stream after it;
* `Stream.items`: all that is still to come;
* `scan`: the tokens of a whole text, or its fault;
* `Stream.size_lt_of_next?`: every item brings the end nearer.
-/

-- The zero of a sum is the numeral, not that of a semiring.
attribute [local instance (2000)] Zero.ofOfNat0

namespace MapExpr.Token

/-- The characters between tokens. -/
def isBlank (c : Char) : Bool :=
  c == ' ' || c == '\t' || c == '\n' || c == '\r'

/-- The bytes of a text in UTF-8. -/
def byteCount (s : List Char) : Nat :=
  (s.map Char.utf8Size).sum

/-- Where the reading of a text stands. -/
inductive Stream
  /-- `rest` is left, and begins at byte `offset`. -/
  | reading (offset : Nat) (rest : List Char)
  /-- The end marker or a fault has been given. -/
  | exhausted
deriving DecidableEq, Repr

/-- The fault of a text that begins with `c` and with no lexeme. -/
def fault (offset : Nat) (c : Char) : ParseError :=
  if c = '\x27' ∨ c = '"' then .unterminatedLiteral offset else .unexpectedChar offset c

namespace Stream

/-- The stream of a whole text. -/
def ofString (text : String) : Stream :=
  reading 0 text.toList

/-- The next token or the fault in its place, with the stream after it. -/
def next? : Stream → Option (Except ParseError Token × Stream)
  | exhausted => none
  | reading offset rest =>
    let start := offset + byteCount (rest.takeWhile isBlank)
    match rest.dropWhile isBlank with
    | [] => some (.ok (.eof start), exhausted)
    | c :: s =>
      match lexeme? (c :: s) with
      | some l =>
        some (.ok ⟨l.kind, .ofList l.front, start⟩, reading (start + byteCount l.front) l.rest)
      | none => some (.error (fault start c), exhausted)

/-- An upper bound on the items to come. -/
def size : Stream → Nat
  | reading _ rest => rest.length + 1
  | exhausted => 0

theorem size_lt_of_next? {s s' : Stream} {item : Except ParseError Token}
    (h : s.next? = some (item, s')) : s'.size < s.size := by
  cases s with
  | exhausted => simp [next?] at h
  | reading offset rest =>
    simp only [next?] at h
    split at h
    · simp only [Option.some.injEq, Prod.mk.injEq] at h
      simp [← h.2, size]
    · rename_i c body hbody
      split at h
      · rename_i l hl
        simp only [Option.some.injEq, Prod.mk.injEq] at h
        obtain ⟨hcut, hne⟩ := splits_of_lexeme? hl
        have hsuffix := (List.dropWhile_suffix (l := rest) isBlank).length_le
        rw [hbody, ← hcut, List.length_append] at hsuffix
        have := List.length_pos_iff.2 hne
        simp only [← h.2, size]
        omega
      · simp only [Option.some.injEq, Prod.mk.injEq] at h
        simp [← h.2, size]

/-- All items still to come. -/
def items (s : Stream) : List (Except ParseError Token) :=
  match _h : s.next? with
  | none => []
  | some (item, s') => item :: s'.items
termination_by s.size
decreasing_by exact size_lt_of_next? _h

end Stream

/-- The tokens of a text with its end marker, or its first fault. -/
def scan (text : String) : Except ParseError (List Token) :=
  (Stream.ofString text).items.mapM id

end MapExpr.Token
