import MapExpr.Proofs.Token.Tiling

/-!
# Slices

The part of a text at a span of bytes. A text can only be cut between two of its characters, at its
beginning and at its end, so not every span has a part.

* `Span.slice?`: the part, if there is one;
* `Span.slice?_eq_some_iff`: it is the piece of the text that the span covers.
-/

namespace MapExpr.Span

/-- The part of `text` at the span `s`, if both its ends are places to cut at and in order. -/
def slice? (text : String) (s : Span) : Option String :=
  if h : String.Pos.Raw.IsValid text ⟨s.start⟩ ∧ String.Pos.Raw.IsValid text ⟨s.stop⟩ ∧
      s.start ≤ s.stop then
    some (text.extract ⟨⟨s.start⟩, h.1⟩ ⟨⟨s.stop⟩, h.2.1⟩)
  else none

theorem slice?_eq_some_iff {text piece : String} {s : Span} :
    slice? text s = some piece ↔ s.Covers text piece := by
  constructor
  · intro h
    simp only [slice?, Option.dite_none_right_eq_some, Option.some.injEq] at h
    obtain ⟨⟨hstart, hstop, hle⟩, rfl⟩ := h
    exact ⟨hle, hstop.le_rawEndPos, hstart, hstop, rfl⟩
  · intro h
    rw [slice?, dif_pos ⟨h.isValid_start, h.isValid_stop, h.start_le_stop⟩, Option.some.injEq,
      ← String.toByteArray_inj]
    exact h.bytes

/-- The part of a text between a text before it and a text after it. -/
theorem slice?_append (before piece after : String) :
    slice? (before ++ (piece ++ after))
      ⟨before.utf8ByteSize, before.utf8ByteSize + piece.utf8ByteSize⟩ = some piece :=
  slice?_eq_some_iff.2 (covers_append before piece after)

end MapExpr.Span
