import MapExpr.Proofs.Token.Items

/-!
# Where tokens begin

The tokens of a text begin one after the other, so that a token is known by its place.

* `pairwise_start_of_scan`: every token begins before the next one;
* `index_of_start`: a place is that of at most one token.
-/

namespace MapExpr.Token

theorem byteCount_pos {s : List Char} (h : s ≠ []) : 0 < byteCount s := by
  cases s with
  | nil => exact absurd rfl h
  | cons c s =>
    have := Char.utf8Size_pos c
    simp only [byteCount, List.map_cons, List.sum_cons]
    omega

/-- What is left of a text is scanned as tokens that begin in it, one after the other. -/
theorem Stream.pairwise_start_of_items {ts : List Token} {offset : Nat} {s : List Char}
    (h : (Stream.reading offset s).items = ts.map .ok) :
    (∀ t ∈ ts, offset ≤ t.start) ∧ ts.Pairwise (·.start < ·.start) := by
  induction ts generalizing offset s with
  | nil => exact ⟨nofun, .nil⟩
  | cons t ts ih =>
    cases hs : s.dropWhile isBlank with
    | nil =>
      simp only [Stream.items_eof hs, List.map_cons, List.cons.injEq, Except.ok.injEq] at h
      obtain ⟨rfl, hts⟩ := h
      obtain rfl : ts = [] := by simpa using hts.symm
      simp [eof]
    | cons c s' =>
      cases hl : lexeme? (c :: s') with
      | none =>
        simp [Stream.items_fault hs hl] at h
      | some l =>
        simp only [items_lexeme hs hl, List.map_cons, List.cons.injEq, Except.ok.injEq] at h
        obtain ⟨rfl, hts⟩ := h
        obtain ⟨hafter, hpairwise⟩ := ih hts
        have hfront := byteCount_pos (splits_of_lexeme? hl).2
        refine ⟨List.forall_mem_cons.2 ⟨Nat.le_add_right _ _, fun u hu => ?_⟩,
          List.pairwise_cons.2 ⟨fun u hu => ?_, hpairwise⟩⟩
        · have := hafter u hu
          omega
        · exact Nat.lt_of_lt_of_le (Nat.lt_add_of_pos_right hfront) (hafter u hu)

variable {text : String} {ts : List Token}

theorem pairwise_start_of_scan (h : scan text = .ok ts) : ts.Pairwise (·.start < ·.start) :=
  (Stream.pairwise_start_of_items (scan_eq_ok_iff.1 h)).2

/-- No two tokens of a text begin at the same place. -/
theorem index_of_start {i j : Nat} {t u : Token} (h : scan text = .ok ts) (hi : ts[i]? = some t)
    (hj : ts[j]? = some u) (hstart : t.start = u.start) : i = j := by
  have hpairwise := List.pairwise_iff_getElem.1 (pairwise_start_of_scan h)
  obtain ⟨hilt, rfl⟩ := List.getElem?_eq_some_iff.1 hi
  obtain ⟨hjlt, rfl⟩ := List.getElem?_eq_some_iff.1 hj
  rcases Nat.lt_trichotomy i j with hlt | rfl | hlt
  · exact absurd hstart (Nat.ne_of_lt (hpairwise i j hilt hjlt hlt))
  · rfl
  · exact absurd hstart.symm (Nat.ne_of_lt (hpairwise j i hjlt hilt hlt))

end MapExpr.Token
