import MapExpr.Proofs.Parse.Reached

/-!
# The account of a limit

What a limit allows can be told from the tokens alone. A reader of an accepted text stands, after
each token, in places whose costs are those of the open brackets, and the limit is checked at the
token after an opening bracket.

* `State.entry_depth_le`: a token leads no deeper than the open brackets;
* `State.run_of_lt`: a bracket that goes beyond the limit is refused at the token after it;
* `exists_run_costs`: the state after every prefix of an accepted text, and its costs;
* `exists_parse_iff_bracketNeed_le`: the limits under which an accepted text is parsed, and the
  fault under every other one.
-/

namespace MapExpr

namespace Parse

variable {limit d : Nat} {s s' : State} {t u : Token} {ts us rest : List Token} {parsed : Parsed}
  {costs : List Nat} {cost : Nat}

/-! ## Steps -/

open Token (nextIs indexIsNext bracketCost)

theorem bracketCost_of_ne (hclose : t.kind ≠ .rightBracket) (hwhole : ¬ t.isWhole = true) :
    bracketCost (t :: rest) = filterCost := by
  cases rest <;> simp [bracketCost, nextIs, indexIsNext, hclose, hwhole]

theorem State.entry_depth_le (s : State) (t : Token) (rest : List Token) :
    (s.entry t).depth ≤ 1 + (s.costs (t :: rest)).sum := by
  cases s with
  | expressionDue hole => exact hole.depth_eq.le
  | scopedDue hole => exact hole.depth_eq.le
  | callOpened withDollar name chain hole =>
    by_cases hclose : t.kind = .rightParen
    · simp [entry, hclose]
    · simp [entry, hclose, costs, nextIs, ExprHole.depth_eq, ExprHole.costs]
  | bracket head path hole =>
    by_cases hfree : t.kind = .rightBracket ∨ t.isWhole
    · simp [entry, hfree]
    · obtain ⟨hclose, hwhole⟩ := not_or.1 hfree
      simp [entry, hfree, costs, bracketCost_of_ne hclose hwhole, ExprHole.depth_eq,
        ExprHole.costs]
  | bracketNumber number head path hole =>
    by_cases hclose : t.kind = .rightBracket
    · simp [entry, hclose]
    · simp [entry, hclose, costs, nextIs, ExprHole.depth_eq, ExprHole.costs]
  | _ => exact Nat.zero_le _

/-- A token that leads too deep is refused at the first token of the place that it leads into. -/
theorem State.run_of_entry {n : Nat} (hentry : s.entry t = ⟨n, u⟩) (hlimit : d < n) :
    s.run d (t :: rest) = .error (.depthExceeded u.start d) := by
  have hlt : d < (s.entry t).depth := by rwa [hentry]
  rw [run_cons, step_of_lt hlt, hentry]
  rfl

theorem State.Accepts.ne_nil (h : s.Accepts rest) (hparsed : s.parsed? = none) : rest ≠ [] := by
  rintro rfl
  obtain ⟨limit, parsed, hrun⟩ := h
  obtain rfl := Except.ok.inj hrun
  cases hparsed

/-- A bracket with a cost that goes beyond the limit: the token after it is too deep. -/
theorem State.run_of_lt (hopened : s.IsOpened) (haccepts : s.Accepts (u :: rest))
    (hcosts : s.costs (u :: rest) = cost :: costs) (hcost : 0 < cost)
    (hlimit : d < 1 + (cost :: costs).sum) :
    s.run d (u :: rest) = .error (.depthExceeded u.start d) := by
  cases s with
  | expressionDue hole =>
    exact run_of_entry rfl (by rwa [hole.depth_eq, show hole.costs = cost :: costs from hcosts])
  | scopedDue hole =>
    exact run_of_entry rfl (by rwa [hole.depth_eq, show hole.costs = cost :: costs from hcosts])
  | callOpened withDollar name chain hole =>
    obtain ⟨rfl, rfl⟩ := List.cons.inj hcosts
    have hclose : u.kind ≠ .rightParen := fun hclose => by simp [nextIs, hclose] at hcost
    refine run_of_entry (if_neg hclose) ?_
    simpa [nextIs, hclose, ExprHole.depth_eq, ExprHole.costs] using hlimit
  | bracket head path hole =>
    obtain ⟨rfl, rfl⟩ := List.cons.inj hcosts
    have hclose : u.kind ≠ .rightBracket := fun hclose => by
      simp [bracketCost, nextIs, hclose] at hcost
    have hdepth : d < (ExprHole.filter head path hole).depth := by
      have hfilter : bracketCost (u :: rest) ≤ filterCost := by
        unfold bracketCost
        split <;> omega
      rw [List.sum_cons] at hlimit
      rw [ExprHole.depth_eq, ExprHole.costs, List.sum_cons]
      omega
    by_cases hwhole : u.isWhole = true
    · -- the number is kept, and it is too deep when it turns out to be no index
      have hkept : ∀ d, ((State.bracket head path hole).step d u).value =
          .ok (.bracketNumber u head path hole) := fun d => by
        simp only [step, hwhole]
        rfl
      obtain ⟨s', hreact, hrest⟩ := accepts_cons_iff.1 haccepts
      obtain rfl := Except.ok.inj (hreact.symm.trans (hkept _))
      obtain ⟨v, rest, rfl⟩ := List.exists_cons_of_ne_nil (hrest.ne_nil rfl)
      rw [run_cons, hkept]
      refine run_of_entry (if_neg fun hclose => ?_) hdepth
      simp [bracketCost, indexIsNext, hwhole, hclose] at hcost
    · refine run_of_entry (if_neg ?_) hdepth
      exact not_or.2 ⟨hclose, hwhole⟩
  | secondBracket f head path hole =>
    obtain ⟨rfl, rfl⟩ := List.cons.inj hcosts
    exact absurd hcost (Nat.lt_irrefl 0)
  | _ => exact hopened.elim

/-! ## Runs -/

/-- After every part of an accepted text, the costs around the state are those of the open
brackets. Every limit leads to it that none of the brackets before goes beyond. -/
theorem exists_run_costs (hus : ∀ u ∈ us, u.word.IsGenuine) (h : start.Accepts (us ++ rest)) :
    ∃ s : State, s.Reached us ∧ s.Accepts rest ∧
      s.costs rest = openCosts (us ++ rest) us.length ∧
      ∀ d, (∀ n < us.length, 1 + (openCosts (us ++ rest) n).sum ≤ d) → start.run d us = .ok s := by
  induction us using List.reverseRecOn generalizing rest with
  | nil => exact ⟨start, reached_start, h, rfl, fun d _ => rfl⟩
  | append_singleton us t ih =>
    have hbefore : ∀ u ∈ us, u.word.IsGenuine := fun u hu => hus u (List.mem_append_left _ hu)
    rw [List.append_assoc, List.singleton_append] at h ⊢
    obtain ⟨s, hreached, haccepts, hcosts, hrun⟩ := ih hbefore h
    obtain ⟨s', hreact, hrest⟩ := State.accepts_cons_iff.1 haccepts
    have ht : t.kind ≠ .eof := (hus t (by simp)).kind_ne_eof
    refine ⟨s', hreached.snoc hbefore ht hreact, hrest, ?_, fun d hd => ?_⟩
    · rw [(hreached.follows hbefore hreact).accounts hrest, hcosts, List.length_append,
        List.length_singleton, openCosts]
      simp
    · rw [List.length_append, List.length_singleton] at hd
      have hlast := hd us.length (Nat.lt_succ_self _)
      rw [← hcosts] at hlast
      have hentry := Nat.le_trans (s.entry_depth_le t rest) hlast
      exact State.run_append_eq_ok_iff.2 ⟨s, hrun d fun n hn => hd n (Nat.lt_succ_of_lt hn),
        State.run_cons_eq_ok_iff.2 ⟨s', State.step_eq_ok_iff.2 ⟨hentry, hreact⟩, rfl⟩⟩

/-- Every limit that covers the brackets of an accepted text lets it pass. -/
theorem run_of_bracketNeed_le {stop : Nat} (hus : ∀ u ∈ us, u.word.IsGenuine)
    (h : start.run limit (us ++ [.eof stop]) = .ok (.accepted parsed))
    (hd : bracketNeed (us ++ [.eof stop]) ≤ d) :
    start.run d (us ++ [.eof stop]) = .ok (.accepted parsed) := by
  obtain ⟨s, -, haccepts, hcosts, hrun⟩ := exists_run_costs hus ⟨limit, parsed, h⟩
  have hneed := bracketNeed_le_iff.1 hd
  have hlast := hneed us.length (by simp)
  rw [← hcosts] at hlast
  have hentry := Nat.le_trans (s.entry_depth_le _ _) hlast
  obtain ⟨s', hreact, hend⟩ := State.accepts_cons_iff.1 haccepts
  have hrun' : start.run d (us ++ [.eof stop]) = .ok s' :=
    State.run_append_eq_ok_iff.2 ⟨s, hrun d fun n hn => hneed n (by simp; omega),
      State.run_cons_eq_ok_iff.2 ⟨s', State.step_eq_ok_iff.2 ⟨hentry, hreact⟩, rfl⟩⟩
  rw [hrun', State.run_unique hrun' h]

/-- The first bracket that goes beyond the limit is refused at the token after it. -/
theorem run_eq_error_of_openAt (hus : ∀ u ∈ us ++ [t], u.word.IsGenuine)
    (h : start.Accepts (us ++ t :: rest)) (hopening : t.isOpening = true)
    (hbefore : ∀ n ≤ us.length, 1 + (openCosts (us ++ t :: rest) n).sum ≤ d)
    (hlimit : d < 1 + openAt (us ++ t :: rest) us.length) :
    ∃ u, rest[0]? = some u ∧ start.run d (us ++ t :: rest) = .error (.depthExceeded u.start d) := by
  rw [List.append_cons] at h hbefore hlimit ⊢
  obtain ⟨s, hreached, haccepts, hcosts, hrun⟩ := exists_run_costs hus h
  have hlength : (us ++ [t]).length = us.length + 1 := by simp
  rw [hlength] at hcosts hrun
  have hlast := hbefore us.length (Nat.le_refl _)
  obtain ⟨u, rest, rfl⟩ := List.exists_cons_of_ne_nil (haccepts.ne_nil hreached.parsed)
  unfold openAt at hlimit
  obtain ⟨-, cost, hcost, haccount⟩ := openCosts_of_sum_lt (t := t) (by simp)
    (Nat.lt_of_add_lt_add_left (Nat.lt_of_le_of_lt hlast hlimit))
  rw [haccount] at hcosts hlimit
  refine ⟨u, rfl, ?_⟩
  rw [State.run_append_of_ok (hrun d fun n hn => hbefore n (Nat.le_of_lt_succ hn))]
  exact State.run_of_lt (hreached.opened (by simpa using hopening)) haccepts hcosts hcost hlimit

/-- Every other limit refuses an accepted text at the token after the first opening bracket that
goes beyond it, or at its first token. -/
theorem run_of_lt_bracketNeed {stop : Nat} (hus : ∀ u ∈ us, u.word.IsGenuine)
    (hts : ts = us ++ [.eof stop]) (h : start.run limit ts = .ok (.accepted parsed))
    (hd : d < bracketNeed ts) :
    ∃ u, start.run d ts = .error (.depthExceeded u.start d) ∧
      (d = 0 ∧ ts[0]? = some u ∨ 0 < d ∧ ∃ i, IsFirstBeyond ts d i ∧ ts[i + 1]? = some u) := by
  have haccepts : start.Accepts ts := ⟨limit, parsed, h⟩
  rcases Nat.eq_zero_or_pos d with rfl | hpos
  · obtain ⟨u, rest, rfl⟩ := List.exists_cons_of_ne_nil (haccepts.ne_nil rfl)
    exact ⟨u, State.run_of_entry rfl Nat.one_pos, .inl ⟨rfl, rfl⟩⟩
  · obtain ⟨i, t, ht, hopening, hlimit, hbefore⟩ := exists_first_beyond hpos hd
    have hfirst : IsFirstBeyond ts d i :=
      ⟨⟨t, ht, hopening, hlimit⟩, fun j hj _ _ _ => hbefore (j + 1) hj⟩
    obtain ⟨hi, hget⟩ := List.getElem?_eq_some_iff.1 ht
    have hsplit : ts.take i ++ t :: ts.drop (i + 1) = ts := by
      rw [← hget, List.getElem_cons_drop, List.take_append_drop]
    have hgenuine : ∀ u ∈ ts.take i ++ [t], u.word.IsGenuine := by
      have hbody : i < us.length := by
        by_contra hend
        obtain rfl : i = us.length := by simp [hts] at hi; omega
        simp [hts] at hget
        simp [← hget, Token.isOpening, Token.eof] at hopening
      rw [← hget, List.take_append_getElem, hts, List.take_append_of_le_length hbody]
      exact fun u hu => hus u (List.mem_of_mem_take hu)
    have hrefused := run_eq_error_of_openAt (d := d) hgenuine (hsplit ▸ haccepts) hopening
    rw [hsplit, List.length_take_of_le (Nat.le_of_lt hi)] at hrefused
    obtain ⟨u, hu, hrun⟩ := hrefused hbefore hlimit
    exact ⟨u, hrun, .inr ⟨hpos, i, hfirst, by simpa using hu⟩⟩

end Parse

open Parse

variable {text : String} {ts : List Token} {settings : Settings} {parsed : Parsed} {d : Nat}

theorem parse_of_bracketNeed_le (hscan : Token.scan text = .ok ts)
    (h : parse settings text = .ok parsed) (hd : bracketNeed ts ≤ d) :
    parse ⟨d⟩ text = .ok parsed := by
  obtain ⟨us, rfl, hus⟩ := Token.tokens_of_scan hscan
  rw [parse_of_scan hscan, ofTokens_eq_ok_iff] at h ⊢
  exact run_of_bracketNeed_le hus h hd

theorem parse_of_lt_bracketNeed (hscan : Token.scan text = .ok ts)
    (h : parse settings text = .ok parsed) (hd : d < bracketNeed ts) :
    ∃ u, parse ⟨d⟩ text = .error (.depthExceeded u.start d) ∧
      (d = 0 ∧ ts[0]? = some u ∨ 0 < d ∧ ∃ i, IsFirstBeyond ts d i ∧ ts[i + 1]? = some u) := by
  obtain ⟨us, hts, hus⟩ := Token.tokens_of_scan hscan
  rw [parse_of_scan hscan, ofTokens_eq_ok_iff] at h
  obtain ⟨u, hrun, hplace⟩ := run_of_lt_bracketNeed hus hts h hd
  exact ⟨u, by rw [parse_of_scan hscan, ofTokens_eq_error hrun], hplace⟩

/-- The brackets of an accepted text decide under which limits it is parsed, always alike. Every
other limit is exceeded right after the first opening bracket that goes beyond it. -/
theorem exists_parse_iff_bracketNeed_le (hscan : Token.scan text = .ok ts)
    (h : parse settings text = .ok parsed) (d : Nat) :
    ((∃ parsed', parse ⟨d⟩ text = .ok parsed') ↔ bracketNeed ts ≤ d) ∧
      (bracketNeed ts ≤ d → parse ⟨d⟩ text = .ok parsed) ∧
      (d < bracketNeed ts → ∃ u, parse ⟨d⟩ text = .error (.depthExceeded u.start d) ∧
        (d = 0 ∧ ts[0]? = some u ∨
          0 < d ∧ ∃ i, IsFirstBeyond ts d i ∧ ts[i + 1]? = some u)) := by
  refine ⟨⟨fun ⟨parsed', hok⟩ => ?_, fun hd => ⟨parsed, parse_of_bracketNeed_le hscan h hd⟩⟩,
    parse_of_bracketNeed_le hscan h, parse_of_lt_bracketNeed hscan h⟩
  by_contra hd
  obtain ⟨u, herror, -⟩ := parse_of_lt_bracketNeed hscan h (Nat.lt_of_not_le hd)
  cases hok.symm.trans herror

/-- The tokens of `f(a[b])`. -/
def filteredArgument : List Token :=
  [⟨.identifier, "f", 0⟩, ⟨.leftParen, "(", 1⟩, ⟨.identifier, "a", 2⟩, ⟨.leftBracket, "[", 3⟩,
    ⟨.identifier, "b", 4⟩, ⟨.rightBracket, "]", 5⟩, ⟨.rightParen, ")", 6⟩, .eof 7]

theorem scan_filteredArgument : Token.scan "f(a[b])" = .ok filteredArgument := by
  decide +kernel

theorem parse_filteredArgument : ∃ parsed, parse ⟨6⟩ "f(a[b])" = .ok parsed := by
  rw [parse_of_scan scan_filteredArgument]
  exact ⟨_, rfl⟩

/-- A limit of five is one too low for the filter in the call. -/
theorem not_parse_filteredArgument : Token.scan "f(a[b])" = .ok filteredArgument ∧
    (∃ parsed, parse ⟨6⟩ "f(a[b])" = .ok parsed) ∧ bracketNeed filteredArgument = 6 ∧
    ¬ ∃ parsed, parse ⟨5⟩ "f(a[b])" = .ok parsed := by
  refine ⟨scan_filteredArgument, parse_filteredArgument, rfl, fun hok => ?_⟩
  obtain ⟨parsed, hparse⟩ := parse_filteredArgument
  exact absurd ((exists_parse_iff_bracketNeed_le scan_filteredArgument hparse 5).1.1 hok)
    (by decide)

end MapExpr
