import MapExpr.Proofs.Grammar.Basic

/-!
# Roots of derivations

What the root of a tree says of its derivation. An expression that no operator made is derived as a
primary, and one that is a selector is derived as a selector.

* `Category.IsPlain`: what is known of the derivations of each category;
* `Derives.primary_of_root`, `Derives.selector_of_root`: derivations of whole expressions.
-/

namespace MapExpr.Grammar

/-- What is known of the words of a category that stand for a tree: without an operator at its root
they are a primary, and if its root is a selector they are that selector. -/
def Category.IsPlain : (c : Category) → List Word → c.Tree → Nat → Prop
  | .expression, ws, e, n | .phrase _, ws, e, n =>
    (e.isOperator = false → Derives (.phrase .primary) ws e n) ∧
      ∀ s, e = .selector s → Derives .selector ws s n
  | _, _, _, _ => True

namespace Derives

variable {ws : List Word} {e : Expr} {s : Selector} {n : Nat}

/-- An expression that is made by an operator. -/
theorem isPlain_of_isOperator (he : e.isOperator = true) :
    Category.IsPlain .expression ws e n := by
  refine ⟨fun hplain => ?_, ?_⟩
  · cases he.symm.trans hplain
  · rintro s rfl
    cases he

/-- A primary that is no selector. -/
theorem isPlain_of_ne (h : Derives (.phrase .primary) ws e n) (he : e.isSelector = false) :
    Category.IsPlain (.phrase .primary) ws e n := by
  refine ⟨fun _ => h, ?_⟩
  rintro s rfl
  cases he

/-- Every derivation is as the root of its tree says. -/
theorem isPlain {c : Category} {t : c.Tree} (h : Derives c ws t n) : c.IsPlain ws t n := by
  induction h with
  | whole _ ih | lift _ _ ih => exact ih
  | union | or | and | comparison | additive | multiplicative => exact isPlain_of_isOperator rfl
  | number hd => exact isPlain_of_ne (.number hd) rfl
  | system => exact isPlain_of_ne .system rfl
  | literal => exact isPlain_of_ne .literal rfl
  | variableRef => exact isPlain_of_ne .variableRef rfl
  | callEmpty => exact isPlain_of_ne .callEmpty rfl
  | call h _ => exact isPlain_of_ne (.call h) rfl
  | group h _ => exact isPlain_of_ne (.group h) rfl
  | selected h _ =>
    refine ⟨fun _ => .selected h, fun s hs => ?_⟩
    obtain rfl := Expr.selector.inj hs
    exact h
  | _ => trivial

/-- An expression without an operator at its root is a primary. -/
theorem primary_of_root (h : Derives .expression ws e n) (he : e.isOperator = false) :
    Derives (.phrase .primary) ws e n :=
  h.isPlain.1 he

/-- An expression that is a selector is derived as one. -/
theorem selector_of_root (h : Derives .expression ws (.selector s) n) :
    Derives .selector ws s n :=
  h.isPlain.2 s rfl

end Derives

end MapExpr.Grammar
