/-!
# Errors

Scanning and parsing stop at the first fault, and every fault has a byte offset.

* `ParseError.message`: the text of an error;
* `ParseError.kind`: lexical, grammatical, or the nesting limit.
-/

namespace MapExpr

/-- The broad class of a fault. -/
inductive ErrorKind
  | lexical
  | grammatical
  | tooDeep
deriving DecidableEq, Repr

/-- The first fault of a text. -/
inductive ParseError
  /-- No token begins with the character `found`. -/
  | unexpectedChar (offset : Nat) (found : Char)
  /-- A quote without a partner. -/
  | unterminatedLiteral (offset : Nat)
  /-- A token that cannot stand where it does. -/
  | unexpectedToken (offset : Nat) (expected found : String)
  /-- What begins here is nested more deeply than `limit`. -/
  | depthExceeded (offset limit : Nat)
deriving DecidableEq, Repr

namespace ParseError

def kind : ParseError → ErrorKind
  | unexpectedChar .. | unterminatedLiteral .. => .lexical
  | unexpectedToken .. => .grammatical
  | depthExceeded .. => .tooDeep

def offset : ParseError → Nat
  | unexpectedChar offset _ | unterminatedLiteral offset | unexpectedToken offset _ _
  | depthExceeded offset _ => offset

def message : ParseError → String
  | unexpectedChar offset found =>
    "unexpected character '" ++ found.toString ++ "' at offset " ++ toString offset
  | unterminatedLiteral offset =>
    "unterminated string literal starting at offset " ++ toString offset
  | unexpectedToken offset expected found =>
    "expected " ++ expected ++ ", found " ++ found ++ " at offset " ++ toString offset
  | depthExceeded offset limit =>
    "expression nesting exceeds the limit of " ++ toString limit ++ " at offset "
      ++ toString offset

end ParseError

end MapExpr
