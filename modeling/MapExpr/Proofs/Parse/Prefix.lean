import MapExpr.Proofs.Parse.Faults

/-!
# What a fault depends on

A fault is known when its token and the next one have been read: whatever stands after them, a text
with the same tokens up to there is refused in the same way.

* `State.run_append_of_error`: a run that has ended in a fault goes no further;
* `exists_take_of_run`: the fault of a run is that of its first tokens, up to the one after the
  token to blame;
* `parse_eq_error_of_prefix`: two texts with these tokens.
-/

namespace MapExpr

open Parse

namespace Parse

variable {limit : Nat} {s : State} {ts : List Token} {e : ParseError}

theorem State.run_append_of_error (h : s.run limit ts = .error e) (us : List Token) :
    s.run limit (ts ++ us) = .error e := by
  rw [run_append, h]
  rfl

/-- The fault of a run over the tokens of a text is at one of them, and it is found by the time that
the token after that one has been read. -/
theorem exists_take_of_run (hgenuine : ∀ u ∈ ts.dropLast, u.word.IsGenuine)
    (h : start.run limit ts = .error e) :
    ∃ j t, ts[j]? = some t ∧ t.start = e.offset ∧
      start.run limit (ts.take (j + 2)) = .error e := by
  obtain ⟨us, t, rest, s, rfl, hrun, hstep⟩ := State.exists_of_run_eq_error h
  have hus := forall_of_dropLast hgenuine
  have hreached := reached_of_run hus hrun
  have hfault : start.run limit (us ++ [t]) = .error e := by
    rw [State.run_append_of_ok hrun]
    exact State.run_cons_eq_error_iff.2 (.inl hstep)
  -- the fault is at the token itself, or at the one that was kept until it was read
  have hlast : (t.start = e.offset) ∨ ∃ before u, us = before ++ [u] ∧ u.start = e.offset := by
    rcases hreached.blames hus hstep with hblames | hblames
    · exact .inl hblames.offset_eq.symm
    · rcases hreached.due_cases t with hdue | hkept
      · rw [hdue] at hblames
        exact .inl hblames.offset_eq.symm
      · obtain ⟨before, hbefore⟩ := List.getLast?_eq_some_iff.1 hkept
        exact .inr ⟨before, _, hbefore, hblames.offset_eq.symm⟩
  rcases hlast with hstart | ⟨before, u, rfl, hstart⟩
  · refine ⟨us.length, t, by simp, hstart, ?_⟩
    have htake : (us ++ t :: rest).take (us.length + 2) = us ++ [t] ++ rest.take 1 := by
      simp [List.take_append]
    rw [htake]
    exact State.run_append_of_error hfault _
  · refine ⟨before.length, u, by simp, hstart, ?_⟩
    have htake : (before ++ [u] ++ t :: rest).take (before.length + 2) = before ++ [u] ++ [t] := by
      simp [List.take_append]
    rw [htake]
    exact hfault

end Parse

variable {text other : String} {ts us : List Token} {settings : Settings} {e : ParseError} {j : Nat}
  {t : Token}

/-- The fault of a text at its token `j` is the fault of every text that has the same tokens up to
the one after token `j`, or all the same tokens if that is the last one. -/
theorem parse_eq_error_of_prefix (hscan : Token.scan text = .ok ts)
    (hother : Token.scan other = .ok us) (h : parse settings text = .error e)
    (hj : ts[j]? = some t) (hstart : t.start = e.offset) (hshared : ts.take (j + 2) <+: us) :
    parse settings other = .error e := by
  rw [parse_eq_error_iff hscan] at h
  obtain ⟨k, u, hk, hplace, hrun⟩ := exists_take_of_run (isGenuine_of_mem_dropLast hscan) h
  obtain rfl : j = k := Token.index_of_start hscan hj hk (hstart.trans hplace.symm)
  obtain ⟨rest, rfl⟩ := hshared
  rw [parse_eq_error_iff hother]
  exact State.run_append_of_error hrun rest

/-- The tokens of `a[9223372036854775808]` before its end marker. -/
def largeIndex : List Token :=
  [⟨.identifier, "a", 0⟩, ⟨.leftBracket, "[", 1⟩, ⟨.number, "9223372036854775808", 2⟩,
    ⟨.rightBracket, "]", 21⟩]

theorem scan_largeIndex : Token.scan "a[9223372036854775808]" = .ok (largeIndex ++ [.eof 22]) := by
  decide +kernel

theorem scan_largeIndex_more : Token.scan "a[9223372036854775808][(b" =
    .ok (largeIndex ++ [⟨.leftBracket, "[", 22⟩, ⟨.leftParen, "(", 23⟩, ⟨.identifier, "b", 24⟩,
      .eof 25]) := by
  decide +kernel

theorem parse_largeIndex : parse ⟨9⟩ "a[9223372036854775808]" =
    .error (.unexpectedToken 2 "an integer index" "number '9223372036854775808'") := by
  have hwhole : Token.isWhole ⟨.number, "9223372036854775808", 2⟩ = true := by
    simp [Token.isWhole]
  have hbracket : start.run 9 (largeIndex ++ [.eof 22]) =
      (State.bracket ⟨false, .plain "a"⟩ ⟨false, []⟩ (.operand .empty .root)).run 9
        [⟨.number, "9223372036854775808", 2⟩, ⟨.rightBracket, "]", 21⟩, .eof 22] := rfl
  rw [parse_eq_error_iff scan_largeIndex, hbracket, State.run_cons]
  simp only [State.step, hwhole]
  rfl

/-- An index that is too large is known to be one when its bracket closes, and it does not matter
what follows the bracket. -/
theorem parse_largeIndex_more :
    (∃ ts us, Token.scan "a[9223372036854775808]" = .ok ts ∧
      Token.scan "a[9223372036854775808][(b" = .ok us ∧ ts ≠ us ∧ ts.take 4 <+: us) ∧
    parse ⟨9⟩ "a[9223372036854775808]" =
      .error (.unexpectedToken 2 "an integer index" "number '9223372036854775808'") ∧
    parse ⟨9⟩ "a[9223372036854775808][(b" =
      .error (.unexpectedToken 2 "an integer index" "number '9223372036854775808'") := by
  have hshared : (largeIndex ++ [Token.eof 22]).take 4 <+: largeIndex ++ [⟨.leftBracket, "[", 22⟩,
      ⟨.leftParen, "(", 23⟩, ⟨.identifier, "b", 24⟩, .eof 25] := List.prefix_append _ _
  refine ⟨⟨_, _, scan_largeIndex, scan_largeIndex_more, by decide, hshared⟩, parse_largeIndex, ?_⟩
  exact parse_eq_error_of_prefix (j := 2) scan_largeIndex scan_largeIndex_more parse_largeIndex rfl
    rfl hshared

end MapExpr
