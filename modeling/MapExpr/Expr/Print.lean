import MapExpr.Expr.Basic
import MapExpr.Number.Shortest
import MapExpr.Token.Basic

/-!
# The canonical text of an expression

An expression is written as a row of pieces: the tokens it is read back from, with a blank on both
sides of an operator and after a comma and nowhere else. The text is that of the pieces.

* `Constant.quoted`: a literal takes the quote that its contents lack, for there are no escapes;
* `Expr.pieces` and its companions for the other nodes;
* `Filter.pieces`: a whole number that is all of a filter keeps one place, since `[3]` is an index;
* `Expr.print`: the text.
-/

namespace MapExpr

/-- A token to be written, or the blank between two. -/
inductive Piece
  | token (kind : Kind) (text : String)
  | blank
deriving DecidableEq, Repr

namespace Piece

/-- The token of a kind with only one spelling. -/
def symbol (k : Kind) : Piece :=
  token k (k.spelling?.getD "")

def text : Piece → String
  | token _ text => text
  | blank => " "

/-- An operator with its blanks. -/
def operator (k : Kind) : List Piece :=
  [blank, symbol k, blank]

/-- The text of a row of pieces. -/
def render (pieces : List Piece) : String :=
  String.join (pieces.map text)

end Piece

def RelationalOp.kind : RelationalOp → Kind
  | less => .less
  | greater => .greater
  | lessEqual => .lessEqual
  | greaterEqual => .greaterEqual
  | equal => .equal
  | notEqual => .notEqual

def AdditiveOp.kind : AdditiveOp → Kind
  | plus => .plus
  | minus => .minus

def MultiplicativeOp.kind : MultiplicativeOp → Kind
  | multiply => .star
  | divide => .divWord
  | modulo => .modWord

/-- Contents between double quotes if a single quote is among them, else between single ones. -/
def Constant.quoted (contents : String) : String :=
  if contents.contains '\x27' then "\"" ++ contents ++ "\"" else "'" ++ contents ++ "'"

def Constant.piece : Constant → Piece
  | number x => .token .number x.toText
  | system => .symbol .systemWord
  | literal contents => .token .literal (quoted contents)

def LocalName.piece : LocalName → Piece
  | wildcard => .symbol .star
  | name text => .token .identifier text

def QName.pieces : QName → List Piece
  | ⟨none, x⟩ => [x.piece]
  | ⟨some q, x⟩ => [.token .identifier q, .symbol .colon, x.piece]

def Index.pieces (i : Index) : List Piece :=
  [.symbol .leftBracket, .token .number (toString i.toInt), .symbol .rightBracket]

mutual

def Expr.pieces : Expr → List Piece
  | .constant c => [c.piece]
  | .variableRef x => [.symbol .dollar, .token .identifier x]
  | .call c => c.pieces
  | .group e => .symbol .leftParen :: e.pieces ++ [.symbol .rightParen]
  | .selector s => s.pieces
  | .or es => (Piece.operator .orWord).intercalate (Expr.eachPieces es)
  | .and es => (Piece.operator .andWord).intercalate (Expr.eachPieces es)
  | .comparison o e f => e.pieces ++ Piece.operator o.kind ++ f.pieces
  | .additive e es => e.pieces ++ Expr.sumPieces es
  | .multiplicative e es => e.pieces ++ Expr.productPieces es
  | .union ss => (Piece.operator .pipe).intercalate (Selector.eachPieces ss)

def Expr.eachPieces : List Expr → List (List Piece)
  | [] => []
  | e :: es => e.pieces :: Expr.eachPieces es

/-- The operators and operands after the first. -/
def Expr.sumPieces : List (AdditiveOp × Expr) → List Piece
  | [] => []
  | (o, e) :: es => Piece.operator o.kind ++ e.pieces ++ Expr.sumPieces es

/-- The operators and operands after the first. -/
def Expr.productPieces : List (MultiplicativeOp × Expr) → List Piece
  | [] => []
  | (o, e) :: es => Piece.operator o.kind ++ e.pieces ++ Expr.productPieces es

def Call.pieces : Call → List Piece
  | .mk withDollar x es =>
    (if withDollar then [.symbol .dollar] else []) ++ .token .identifier x :: .symbol .leftParen
      :: [.symbol .comma, .blank].intercalate (Expr.eachPieces es) ++ [.symbol .rightParen]

def Selector.pieces : Selector → List Piece
  | .steps absolute ss =>
    (if absolute then [.symbol .slash] else [])
      ++ [.symbol .slash].intercalate (Step.eachPieces ss)
  | .scoped s => .symbol .dollar :: .symbol .leftParen :: s.pieces ++ [.symbol .rightParen]

def Selector.eachPieces : List Selector → List (List Piece)
  | [] => []
  | s :: ss => s.pieces :: Selector.eachPieces ss

def Step.pieces : Step → List Piece
  | .parent => [.symbol .dotDot]
  | .current => [.symbol .dot]
  | .named isAttribute x p =>
    (if isAttribute then [.symbol .atSign] else []) ++ x.pieces ++ p.pieces

def Step.eachPieces : List Step → List (List Piece)
  | [] => []
  | s :: ss => s.pieces :: Step.eachPieces ss

def Predicate.pieces : Predicate → List Piece
  | .absent => []
  | .index i => i.pieces
  | .filter f => .symbol .leftBracket :: f.pieces ++ [.symbol .rightBracket]
  | .filterThenIndex f i =>
    .symbol .leftBracket :: f.pieces ++ .symbol .rightBracket :: i.pieces

def Filter.pieces : Filter → List Piece
  | .empty => []
  | .call c => c.pieces
  | .selector s => s.pieces
  | .operator (.constant (.number x)) =>
    [.token .number (if x.isWhole then x.wholeText else x.toText)]
  | .operator e => e.pieces

end

/-! ## Texts -/

def Expr.print (e : Expr) : String := Piece.render e.pieces

def Selector.print (s : Selector) : String := Piece.render s.pieces

def Step.print (s : Step) : String := Piece.render s.pieces

def Predicate.print (p : Predicate) : String := Piece.render p.pieces

def QName.print (x : QName) : String := Piece.render x.pieces

end MapExpr
