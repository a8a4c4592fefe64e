import MapExpr.Span

/-!
# Tokens

The terminal classes of map expressions and the tokens made of them. Quotes are no tokens of their
own: a literal is one token, with both of its quotes in its text.

* `Kind.spelling?`: the one spelling of a punctuation mark or a keyword, from which the tables
  `Kind.marks` and `Kind.keywords` and the descriptions in messages follow;
* `Token.span`: a token ends where its text does.
-/

namespace MapExpr

/-- The terminal classes of map expressions. -/
inductive Kind
  | dollar | slash | leftParen | rightParen | leftBracket | rightBracket | minus | plus | dot
  | star | dotDot | atSign | comma | pipe | less | greater | lessEqual | greaterEqual | colon
  | colonColon | equal | notEqual
  | andWord | orWord | divWord | modWord | nullWord | falseWord | trueWord | nilWord | systemWord
  | number | literal | identifier
  /-- The end of the text. -/
  | eof
deriving DecidableEq, Repr

namespace Kind

/-- The spelling of a kind that has only one. -/
def spelling? : Kind → Option String
  | dollar => some "$"
  | slash => some "/"
  | leftParen => some "("
  | rightParen => some ")"
  | leftBracket => some "["
  | rightBracket => some "]"
  | minus => some "-"
  | plus => some "+"
  | dot => some "."
  | star => some "*"
  | dotDot => some ".."
  | atSign => some "@"
  | comma => some ","
  | pipe => some "|"
  | less => some "<"
  | greater => some ">"
  | lessEqual => some "<="
  | greaterEqual => some ">="
  | colon => some ":"
  | colonColon => some "::"
  | equal => some "="
  | notEqual => some "!="
  | andWord => some "and"
  | orWord => some "or"
  | divWord => some "div"
  | modWord => some "mod"
  | nullWord => some "null"
  | falseWord => some "false"
  | trueWord => some "true"
  | nilWord => some "nil"
  | systemWord => some "System"
  | number | literal | identifier | eof => none

/-- The punctuation marks, each before every mark that begins it. -/
def marks : List Kind :=
  [dotDot, colonColon, lessEqual, greaterEqual, notEqual, dollar, slash, leftParen, rightParen,
    leftBracket, rightBracket, minus, plus, dot, star, atSign, comma, pipe, less, greater, colon,
    equal]

/-- The names that are reserved. -/
def keywords : List Kind :=
  [andWord, orWord, divWord, modWord, nullWord, falseWord, trueWord, nilWord, systemWord]

/-- The keyword that `name` spells; case matters. -/
def keyword? (name : String) : Option Kind :=
  keywords.find? (·.spelling? = some name)

theorem spelling?_of_keyword? {name : String} {k : Kind} (h : keyword? name = some k) :
    k.spelling? = some name := by
  simpa using List.find?_some h

theorem keyword?_of_spelling? {name : String} {k : Kind} (hk : k ∈ keywords)
    (h : k.spelling? = some name) : keyword? name = some k := by
  simp only [keywords, List.mem_cons, List.not_mem_nil, or_false] at hk
  rcases hk with rfl | rfl | rfl | rfl | rfl | rfl | rfl | rfl | rfl <;>
  · obtain rfl := Option.some.inj h
    decide

/-- The kind of a name: the keyword it spells, or else an identifier. -/
def ofName (name : String) : Kind :=
  (keyword? name).getD identifier

/-- The six comparisons. -/
def isRelational : Kind → Bool
  | less | greater | lessEqual | greaterEqual | equal | notEqual => true
  | _ => false

/-- A selector may begin with a token of this kind. -/
def startsSelector : Kind → Bool
  | slash | dot | dotDot | star | atSign | identifier | dollar => true
  | _ => false

/-- How messages speak of a kind. -/
def describe (k : Kind) : String :=
  match k with
  | number => "number"
  | literal => "string literal"
  | identifier => "name"
  | eof => "end of input"
  | k => "'" ++ k.spelling?.getD "" ++ "'"

end Kind

/-- A classified piece of a text that begins at byte `start`. -/
structure Token where
  kind : Kind
  text : String
  start : Nat
deriving DecidableEq, Repr

namespace Token

/-- The end marker of a text of `length` bytes. -/
def eof (length : Nat) : Token :=
  ⟨.eof, "", length⟩

/-- The bytes that a token takes up. -/
def span (t : Token) : Span :=
  ⟨t.start, t.start + t.text.utf8ByteSize⟩

/-- How messages speak of a token: as it stands in the text. -/
def describe (t : Token) : String :=
  match t.kind with
  | .number | .identifier => t.kind.describe ++ " '" ++ t.text ++ "'"
  | .literal => t.kind.describe ++ " " ++ t.text
  | k => k.describe

/-- A number without a point. -/
def isWhole (t : Token) : Bool :=
  t.kind == .number && !t.text.contains '.'

@[simp] theorem span_eof (n : Nat) : (eof n).span = ⟨n, n⟩ := rfl

@[simp] theorem describe_eof (n : Nat) : (eof n).describe = "end of input" := rfl

end Token

end MapExpr
