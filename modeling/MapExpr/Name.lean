/-!
# Names

A name is an `NCName` of XML 1.0, fifth edition: a start character, then name characters. The
colon is neither, since it separates a qualifier from a local name.

* `Name.isStart`, `Name.isPart`: the two classes of characters;
* `Name.classOf`: the class of any number taken as a code point;
* `Name.runs`: the maximal runs of one class in a range of code points.
-/

namespace MapExpr.Name

/-- The code points from `first` to `last`, both included. -/
structure CodeRange where
  first : Nat
  last : Nat
deriving DecidableEq, Repr

namespace CodeRange

def contains (r : CodeRange) (n : Nat) : Bool :=
  r.first ≤ n && n ≤ r.last

end CodeRange

/-- `NameStartChar` without the colon. -/
def startRanges : List CodeRange :=
  [⟨0x41, 0x5A⟩, ⟨0x5F, 0x5F⟩, ⟨0x61, 0x7A⟩, ⟨0xC0, 0xD6⟩, ⟨0xD8, 0xF6⟩, ⟨0xF8, 0x2FF⟩,
    ⟨0x370, 0x37D⟩, ⟨0x37F, 0x1FFF⟩, ⟨0x200C, 0x200D⟩, ⟨0x2070, 0x218F⟩, ⟨0x2C00, 0x2FEF⟩,
    ⟨0x3001, 0xD7FF⟩, ⟨0xF900, 0xFDCF⟩, ⟨0xFDF0, 0xFFFD⟩, ⟨0x10000, 0xEFFFF⟩]

/-- What `NameChar` adds to `NameStartChar`: hyphen, full stop, digits and combining marks. -/
def partRanges : List CodeRange :=
  [⟨0x2D, 0x2E⟩, ⟨0x30, 0x39⟩, ⟨0xB7, 0xB7⟩, ⟨0x300, 0x36F⟩, ⟨0x203F, 0x2040⟩]

/-- A name may begin with `c`. -/
def isStart (c : Char) : Bool :=
  startRanges.any (·.contains c.toNat)

/-- A name may go on with `c`. -/
def isPart (c : Char) : Bool :=
  isStart c || partRanges.any (·.contains c.toNat)

theorem isPart_of_isStart {c : Char} (h : isStart c = true) : isPart c = true := by
  simp [isPart, h]

/-! ## Classes of code points -/

/-- What a code point may be in a name. -/
inductive CodeClass
  /-- It begins a name or goes on with it. -/
  | start
  /-- It only goes on with a name. -/
  | part
  /-- It is a character, but never of a name. -/
  | foreign
  /-- It is no character: a surrogate, or above the last code point. -/
  | invalid
deriving DecidableEq, Repr

def classOf (n : Nat) : CodeClass :=
  if n.isValidChar then
    let c := Char.ofNat n
    if isStart c then .start else if isPart c then .part else .foreign
  else .invalid

/-- The code points, in order, at which a class can change. -/
def edges : List Nat :=
  let ranges := startRanges ++ partRanges ++ [⟨0xD800, 0xDFFF⟩, ⟨0, 0x10FFFF⟩]
  (ranges.flatMap fun r => [r.first, r.last + 1]).mergeSort.eraseDups

/-- A maximal run of code points of one class. -/
structure Run where
  codeClass : CodeClass
  range : CodeRange
deriving DecidableEq, Repr

/-- The runs that begin at the given code points, the last of them ending at `last`. -/
def runsFrom (last : Nat) : List Nat → List Run
  | [] => []
  | [first] => [⟨classOf first, ⟨first, last⟩⟩]
  | first :: next :: more =>
    ⟨classOf first, ⟨first, next - 1⟩⟩ :: runsFrom last (next :: more)

/-- The maximal runs of one class from `first` to `last`, none if `last < first`. -/
def runs (first last : Nat) : List Run :=
  if last < first then []
  else
    let changes := edges.filter fun n => first < n && n ≤ last && classOf (n - 1) ≠ classOf n
    runsFrom last (first :: changes)

end MapExpr.Name
