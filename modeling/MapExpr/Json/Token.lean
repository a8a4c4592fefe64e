/-!
# JSON tokens

The tokens of RFC 8259. A string is kept as it was escaped, for half of a surrogate pair is no
character but may stand in a string that nobody reads.

* `Token.ofText?`: the tokens of a text;
* `TextUnit.text?`: the characters of a string, if its units make characters;
* `Scalar.isValid`, `Scalar.natural?`: the values that are not in quotes or brackets.
-/

namespace MapExpr.Json

/-- A part of a string: a character, or an escaped UTF-16 code unit. -/
inductive TextUnit
  | char (c : Char)
  | code (n : Nat)
deriving DecidableEq, Repr

inductive Token
  | openBrace
  | closeBrace
  | openBracket
  | closeBracket
  | colon
  | comma
  | string (units : List TextUnit)
  /-- A number, or one of the words `true`, `false` and `null`. -/
  | scalar (text : List Char)
deriving DecidableEq, Repr

/-! ## Strings -/

namespace TextUnit

/-- The character that a letter stands for after a backslash. -/
def escape? : Char → Option Char
  | '"' => some '"'
  | '\\' => some '\\'
  | '/' => some '/'
  | 'b' => some '\x08'
  | 'f' => some '\x0c'
  | 'n' => some '\n'
  | 'r' => some '\r'
  | 't' => some '\t'
  | _ => none

def hexDigit? (c : Char) : Option Nat :=
  if c.isDigit then some (c.toNat - '0'.toNat)
  else if 'a' ≤ c ∧ c ≤ 'f' then some (c.toNat - 'a'.toNat + 10)
  else if 'A' ≤ c ∧ c ≤ 'F' then some (c.toNat - 'A'.toNat + 10)
  else none

/-- The code unit that hexadecimal digits write. -/
def code? (digits : List Char) : Option TextUnit := do
  let values ← digits.mapM hexDigit?
  some (.code (values.foldl (fun n d => 16 * n + d) 0))

/-- The string that ends with the first quote, and the text after it. -/
def quoted? : List Char → Option (List TextUnit × List Char)
  | [] => none
  | '"' :: s => some ([], s)
  | '\\' :: 'u' :: a :: b :: c :: d :: s => do
    let u ← code? [a, b, c, d]
    let (us, rest) ← quoted? s
    some (u :: us, rest)
  | '\\' :: e :: s => do
    let c ← escape? e
    let (us, rest) ← quoted? s
    some (.char c :: us, rest)
  | c :: s =>
    if c = '\\' ∨ c.toNat < 0x20 then none
    else do
      let (us, rest) ← quoted? s
      some (.char c :: us, rest)

def isHighSurrogate (n : Nat) : Bool :=
  0xD800 ≤ n && n < 0xDC00

def isLowSurrogate (n : Nat) : Bool :=
  0xDC00 ≤ n && n < 0xE000

/-- The characters of a string, in which escaped surrogates stand in pairs. -/
def text? : List TextUnit → Option (List Char)
  | [] => some []
  | .char c :: us => (text? us).map (c :: ·)
  | .code high :: .code low :: us =>
    if isHighSurrogate high then
      if isLowSurrogate low then
        (text? us).map (.ofNat (0x10000 + (high - 0xD800) * 0x400 + (low - 0xDC00)) :: ·)
      else none
    else if isLowSurrogate high then none
    else (text? (.code low :: us)).map (.ofNat high :: ·)
  | .code n :: us =>
    if isHighSurrogate n || isLowSurrogate n then none else (text? us).map (.ofNat n :: ·)

end TextUnit

/-! ## Scalars -/

namespace Scalar

/-- Digits, at least one. -/
def isDigits (s : List Char) : Bool :=
  !s.isEmpty && s.all Char.isDigit

/-- An exponent with an optional sign, or nothing. -/
def isExponent : List Char → Bool
  | [] => true
  | e :: s =>
    (e == 'e' || e == 'E') &&
      match s with
      | '+' :: s => isDigits s
      | '-' :: s => isDigits s
      | s => isDigits s

/-- A fraction and an exponent, each optional. -/
def isTail : List Char → Bool
  | '.' :: s => !(s.takeWhile Char.isDigit).isEmpty && isExponent (s.dropWhile Char.isDigit)
  | s => isExponent s

/-- A number without a sign; a zero in front is alone. -/
def isUnsigned : List Char → Bool
  | '0' :: s => isTail s
  | c :: s => c.isDigit && isTail (s.dropWhile Char.isDigit)
  | [] => false

def isNumber : List Char → Bool
  | '-' :: s => isUnsigned s
  | s => isUnsigned s

/-- The words that are values. -/
def words : List (List Char) :=
  ["true".toList, "false".toList, "null".toList]

def isValid (s : List Char) : Bool :=
  isNumber s || words.contains s

/-- A character that a scalar may hold. -/
def isPart (c : Char) : Bool :=
  c.isAlphanum || c == '+' || c == '-' || c == '.'

/-- The value of a scalar that is a natural number, without a sign, fraction or exponent. -/
def natural? (s : List Char) : Option Nat :=
  if isUnsigned s && s.all Char.isDigit then some (Nat.ofDigitChars 10 s 0) else none

end Scalar

/-! ## Tokens -/

namespace Token

def isBlank (c : Char) : Bool :=
  c == ' ' || c == '\t' || c == '\n' || c == '\r'

/-- The token that is one character. -/
def mark? : Char → Option Token
  | '\x7b' => some openBrace
  | '\x7d' => some closeBrace
  | '[' => some openBracket
  | ']' => some closeBracket
  | ':' => some colon
  | ',' => some comma
  | _ => none

/-- The token in front of a text that does not begin with a blank, and the rest of the text. -/
def first? (c : Char) (s : List Char) : Option (Token × List Char) :=
  if c = '"' then (TextUnit.quoted? s).map fun (us, rest) => (string us, rest)
  else
    match mark? c with
    | some t => some (t, s)
    | none =>
      let text := c :: s.takeWhile Scalar.isPart
      if Scalar.isValid text then some (scalar text, s.dropWhile Scalar.isPart) else none

theorem length_le_of_quoted? {s rest : List Char} {us : List TextUnit}
    (h : TextUnit.quoted? s = some (us, rest)) : rest.length ≤ s.length := by
  fun_induction TextUnit.quoted? s generalizing us rest with
  | case1 => simp at h
  | case2 => simp at h; simp [← h.2]
  | case3 a b c d s ih =>
    simp only [Option.bind_eq_bind, Option.bind_eq_some_iff, Prod.exists, Option.some.injEq,
      Prod.mk.injEq] at h
    obtain ⟨u, -, us, rest, hs, -, rfl⟩ := h
    have := ih hs
    simp only [List.length_cons]
    omega
  | case4 e s _ ih =>
    simp only [Option.bind_eq_bind, Option.bind_eq_some_iff, Prod.exists, Option.some.injEq,
      Prod.mk.injEq] at h
    obtain ⟨u, -, us, rest, hs, -, rfl⟩ := h
    have := ih hs
    simp only [List.length_cons]
    omega
  | case5 => simp at h
  | case6 c s _ _ _ _ ih =>
    simp only [Option.bind_eq_bind, Option.bind_eq_some_iff, Prod.exists, Option.some.injEq,
      Prod.mk.injEq] at h
    obtain ⟨us, rest, hs, -, rfl⟩ := h
    have := ih hs
    simp only [List.length_cons]
    omega

theorem length_le_of_first? {c : Char} {s rest : List Char} {t : Token}
    (h : first? c s = some (t, rest)) : rest.length ≤ s.length := by
  unfold first? at h
  split at h
  · simp only [Option.map_eq_some_iff, Prod.exists, Prod.mk.injEq] at h
    obtain ⟨us, rest, hs, -, rfl⟩ := h
    exact length_le_of_quoted? hs
  · split at h
    · simp only [Option.some.injEq, Prod.mk.injEq] at h
      simp [← h.2]
    · simp only [Option.ite_none_right_eq_some, Option.some.injEq, Prod.mk.injEq] at h
      obtain ⟨-, -, rfl⟩ := h
      exact (List.dropWhile_suffix _).length_le

/-- The tokens of a text. -/
def ofChars? : List Char → Option (List Token)
  | [] => some []
  | c :: s =>
    if isBlank c then ofChars? s
    else
      match _h : first? c s with
      | none => none
      | some (t, rest) => (ofChars? rest).map (t :: ·)
termination_by s => s.length
decreasing_by
  · simp
  · have := length_le_of_first? _h
    simp only [List.length_cons]
    omega

def ofText? (text : String) : Option (List Token) :=
  ofChars? text.toList

end Token

end MapExpr.Json
