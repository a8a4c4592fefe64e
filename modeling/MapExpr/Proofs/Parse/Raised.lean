import MapExpr.Proofs.Parse.Faults

/-!
# Raising the limit

A higher limit changes no answer that was not about the limit. Two readers of one text under two
limits are in the same state until the lower limit is exceeded, and the fault that the other one may
still have is no earlier.

* `State.run_eq_error_of_le`: a fault that is not of the limit;
* `State.le_offset_of_tooDeep`: the fault after the place where a limit was exceeded;
* `parse_raised`: all that a higher limit can do.
-/

namespace MapExpr

open Parse

variable {text : String} {m n : Nat} {A : Parsed} {e : ParseError}

namespace Parse

variable {s s' : State} {t : Token} {ts us rest : List Token}

/-- A fault that is not of the limit stays under every higher one. -/
theorem State.run_eq_error_of_le (h : s.run m ts = .error e) (hkind : e.kind ≠ .tooDeep)
    (hle : m ≤ n) : s.run n ts = .error e := by
  obtain ⟨us, t, rest, s', rfl, hrun, hstep⟩ := exists_of_run_eq_error h
  rw [run_append_of_ok (run_mono hrun hle)]
  refine run_cons_eq_error_iff.2 (.inl ?_)
  rcases step_eq_error_iff.1 hstep with ⟨-, rfl⟩ | ⟨hdepth, hreact⟩
  · exact absurd rfl hkind
  · exact step_eq_error_iff.2 (.inr ⟨Nat.le_trans hdepth hle, hreact⟩)

/-- Where a limit is exceeded, a higher one has no fault before that. -/
theorem State.le_offset_of_tooDeep {o d : Nat} (hgenuine : ∀ u ∈ ts.dropLast, u.word.IsGenuine)
    (hstarts : ts.Pairwise (·.start < ·.start)) (h : start.run m ts = .error (.depthExceeded o d))
    (hle : m ≤ n) (hagain : start.run n ts = .error e) : o ≤ e.offset := by
  obtain ⟨us, t, rest, s, rfl, hrun, hstep⟩ := exists_of_run_eq_error h
  have hus := forall_of_dropLast hgenuine
  have hreached := reached_of_run hus hrun
  rw [run_append_of_ok (run_mono hrun hle)] at hagain
  rw [← hreached.start_due_of_tooDeep hus hstep]
  exact hreached.due_le_of_run hgenuine hstarts hagain

end Parse

/-- A higher limit leaves a tree and a fault that is not of the limit as they are. Where the lower
limit was exceeded, the text is now parsed, or it has a fault there or later. -/
theorem parse_raised (hle : m ≤ n) (text : String) :
    (∀ A, parse ⟨m⟩ text = .ok A → parse ⟨n⟩ text = .ok A) ∧
      (∀ e, parse ⟨m⟩ text = .error e → e.kind ≠ .tooDeep → parse ⟨n⟩ text = .error e) ∧
      ∀ o d, parse ⟨m⟩ text = .error (.depthExceeded o d) →
        (∃ A, parse ⟨n⟩ text = .ok A) ∨ ∃ e, parse ⟨n⟩ text = .error e ∧ o ≤ e.offset := by
  cases hscan : Token.scan text with
  | error x =>
    -- the limit has no part in it
    have hsame : ∀ settings settings', parse settings text = parse settings' text := by
      simp only [parse_of_scan_eq_error hscan, implies_true]
    refine ⟨fun A h => hsame ⟨m⟩ ⟨n⟩ ▸ h, fun e h _ => hsame ⟨m⟩ ⟨n⟩ ▸ h, fun o d h => ?_⟩
    exact .inr ⟨.depthExceeded o d, hsame ⟨m⟩ ⟨n⟩ ▸ h, Nat.le_refl o⟩
  | ok ts =>
    refine ⟨fun A h => ?_, fun e h hkind => ?_, fun o d h => ?_⟩
    · rw [parse_eq_ok_iff hscan] at h ⊢
      exact State.run_mono h hle
    · rw [parse_eq_error_iff hscan] at h ⊢
      exact State.run_eq_error_of_le h hkind hle
    · cases hagain : parse ⟨n⟩ text with
      | ok A => exact .inl ⟨A, rfl⟩
      | error e =>
        rw [parse_eq_error_iff hscan] at h hagain
        refine .inr ⟨e, rfl, ?_⟩
        exact State.le_offset_of_tooDeep (isGenuine_of_mem_dropLast hscan)
          (Token.pairwise_start_of_scan hscan) h hle hagain

theorem scan_openFilter : Token.scan "(a[b" =
    .ok [⟨.leftParen, "(", 0⟩, ⟨.identifier, "a", 1⟩, ⟨.leftBracket, "[", 2⟩,
      ⟨.identifier, "b", 3⟩, .eof 4] := by
  decide +kernel

theorem parse_openFilter : parse ⟨2⟩ "(a[b" = .error (.depthExceeded 3 2) := by
  rw [parse_of_scan scan_openFilter]
  rfl

/-- A filter in a group is too deep for a limit of two. Under a limit of nine, its bracket is found
to be open where the text ends. -/
theorem parse_raised_openFilter : 2 ≤ 9 ∧ parse ⟨2⟩ "(a[b" = .error (.depthExceeded 3 2) ∧
    ((∃ A, parse ⟨9⟩ "(a[b" = .ok A) ∨ ∃ e, parse ⟨9⟩ "(a[b" = .error e ∧ 3 ≤ e.offset) := by
  have hle : 2 ≤ 9 := by decide
  exact ⟨hle, parse_openFilter, (parse_raised hle _).2.2 _ _ parse_openFilter⟩

end MapExpr
