import MapExpr.Proofs.Number.Whole
import MapExpr.Proofs.Parse.Completion
import MapExpr.Proofs.Parse.Faults

/-!
# The first fault

A text that is no expression is refused at the first token that cannot be right: the tokens before
it could have been completed, and with it they cannot. Only an index that is too large is found out
one token later, when its bracket closes.

* `Viable ts`: the tokens `ts` begin an expression;
* `viable_of_run`, `not_viable_of_react`: tokens that have been taken, and a token that is refused;
* `IsLargeIndex`: the number at which the fault is one token late;
* `first_fault`: where a syntax error is.
-/

namespace MapExpr

open Parse

/-- Some more words make the tokens an expression, which is accepted if the limit is high enough. -/
def Viable (ts : List Token) : Prop :=
  ∃ (ws : List Word) (stop : Nat) (settings : Settings) (parsed : Parsed), (∀ w ∈ ws, w.IsLexeme) ∧
    (ofTokens settings (ts ++ ws.map Word.token ++ [.eof stop])).value = .ok parsed

/-- Token `k` is a number without a point, alone in the first brackets of a step, and does not fit
into 64 bits. -/
def IsLargeIndex (ts : List Token) (k : Nat) : Prop :=
  ∃ (before : List Token) (name opening number closing : Token) (after : List Token) (d : Decimal),
    ts = before ++ name :: opening :: number :: closing :: after ∧ k = before.length + 2 ∧
    (name.kind = .identifier ∨ name.kind = .star) ∧ opening.kind = .leftBracket ∧
    closing.kind = .rightBracket ∧ number.isWhole = true ∧
    Decimal.ofText? number.text = some d ∧ ¬ Decimal.Integer.InRange d.numerator

namespace Parse

variable {limit : Nat} {s s' : State} {t number : Token} {ts us rest : List Token} {e : ParseError}
  {head : StepHead} {path : Path} {place : SelectorHole}

/-- Tokens that have been taken can be completed. -/
theorem viable_of_run (hus : ∀ u ∈ us, u.word.IsGenuine) (h : start.run limit us = .ok s) :
    Viable us := by
  obtain ⟨ws, hws, haccepts⟩ := (reached_of_run hus h).completes hus
  obtain ⟨limit', parsed, hrun⟩ := haccepts 0
  refine ⟨ws, 0, ⟨max limit limit'⟩, parsed, hws, ofTokens_eq_ok_iff.2 ?_⟩
  rw [List.append_assoc]
  exact State.run_append_eq_ok_iff.2 ⟨s, State.run_mono h (Nat.le_max_left _ _),
    State.run_mono hrun (Nat.le_max_right _ _)⟩

/-- Tokens that can be completed are taken under some limit. -/
theorem exists_run_of_viable (h : Viable us) : ∃ limit s, start.run limit us = .ok s := by
  obtain ⟨ws, stop, settings, parsed, -, hok⟩ := h
  rw [ofTokens_eq_ok_iff, List.append_assoc] at hok
  obtain ⟨s, hrun, -⟩ := State.run_append_eq_ok_iff.1 hok
  exact ⟨_, s, hrun⟩

/-- No words complete the tokens before a token and that token, if it is refused. -/
theorem not_viable_of_react (h : start.run limit us = .ok s)
    (hreact : (s.react t).value = .error e) : ¬ Viable (us ++ [t]) := by
  intro hviable
  obtain ⟨limit', s₂, hrun⟩ := exists_run_of_viable hviable
  obtain ⟨s₁, hbefore, hlast⟩ := State.run_append_eq_ok_iff.1 hrun
  obtain rfl := State.run_unique h hbefore
  obtain ⟨s₃, hstep, -⟩ := State.run_cons_eq_ok_iff.1 hlast
  cases hreact.symm.trans (State.step_eq_ok_iff.1 hstep).2

/-! ## A large index -/

/-- The last word of a node name is a name or a star. -/
theorem exists_last_of_name {ws : List Word} {x : QName} {n : Nat}
    (h : Grammar.Derives .name ws x n) :
    ∃ vs w, ws = vs ++ [w] ∧ (w.kind = .identifier ∨ w.kind = .star) := by
  cases h with
  | plainName => exact ⟨[], _, rfl, .inl rfl⟩
  | plainWildcard => exact ⟨[], _, rfl, .inr rfl⟩
  | qualifiedName => exact ⟨[_, _], _, rfl, .inl rfl⟩
  | qualifiedWildcard => exact ⟨[_, _], _, rfl, .inr rfl⟩

/-- The number that is kept stands after the name of a step and a bracket. -/
theorem exists_brackets_of_run
    (h : start.run limit us = .ok (.bracketNumber number head path place)) :
    ∃ before name opening last, us = before ++ [name, opening, last] ∧
      (name.kind = .identifier ∨ name.kind = .star) ∧ opening.kind = .leftBracket := by
  have hroot : [] ∈ ExprHole.root.front := Language.nil_mem_one
  have hstart : [] ∈ start.front := expressionDue_mem hroot rfl
  obtain ⟨_, ⟨as, -, _, ⟨bs, ⟨cs, -, ds, ⟨n, hname⟩, rfl⟩, _, ⟨p, rfl⟩, rfl⟩, rfl⟩, _, ⟨rfl, -⟩,
    hwords⟩ := State.run_front hstart h
  obtain ⟨vs, w, rfl, hkind⟩ := exists_last_of_name hname
  have hmap : us.map Token.word =
      as ++ (cs ++ vs) ++ [w, ⟨.leftBracket, p⟩, number.word] := by
    rw [List.nil_append] at hwords
    simp [← hwords]
  obtain ⟨before, ts₁, rfl, -, hts₁⟩ := List.map_eq_append_iff.1 hmap
  obtain ⟨name, ts₂, rfl, rfl, hts₂⟩ := List.map_eq_cons_iff.1 hts₁
  obtain ⟨opening, ts₃, rfl, hopening, hts₃⟩ := List.map_eq_cons_iff.1 hts₂
  obtain ⟨last, rfl, -⟩ := List.map_eq_singleton_iff.1 hts₃
  exact ⟨before, name, opening, last, rfl, hkind, congrArg Word.kind hopening⟩

/-- A number that is no index, when its bracket closes, is too large for one. -/
theorem isLargeIndex_of_run (hus : ∀ u ∈ us, u.word.IsGenuine) (h : start.run limit us = .ok s)
    (hkept : s.kept? = some number) (ht : t.kind = .rightBracket)
    (hindex : Decimal.Integer.ofText? number.text = none) :
    ∃ before, us = before ++ [number] ∧
      ∀ rest, IsLargeIndex (us ++ t :: rest) before.length := by
  have hreached := reached_of_run hus h
  obtain ⟨hlast, hwhole⟩ := hreached.kept hkept
  cases s with
  | bracketNumber kept head path place =>
    obtain rfl := Option.some.inj hkept
    obtain ⟨before, name, opening, last, rfl, hname, hopening⟩ := exists_brackets_of_run h
    obtain rfl : last = kept := by simpa using hlast
    have hpoint : last.text.contains '.' = false := by
      simpa [Token.isWhole] using (Bool.and_eq_true_iff.1 hwhole).2
    have hgenuine := hus last (by simp)
    simp only [Word.IsGenuine, Word.kind_of_isWhole (w := last.word) hwhole] at hgenuine
    obtain ⟨d, hd⟩ := Option.isSome_iff_exists.1 hgenuine
    rw [Decimal.Integer.ofText?_of_whole hpoint hd] at hindex
    have hlarge : ¬ Decimal.Integer.InRange d.numerator := by simpa using hindex
    exact ⟨before ++ [name, opening], by simp, fun rest => ⟨before, name, opening, last, t, rest, d,
      by simp, by simp, hname, hopening, ht, hwhole, hd, hlarge⟩⟩
  | _ => cases hkept

/-! ## Faults -/

/-- Where the run over the tokens of a text ends in a syntax error, and what is known there. -/
theorem exists_fault_of_run {stop offset : Nat} {expected found : String}
    (hus : ∀ u ∈ us, u.word.IsGenuine) (hts : ts = us ++ [.eof stop])
    (h : start.run limit ts = .error (.unexpectedToken offset expected found)) :
    ∃ k t, ts[k]? = some t ∧ t.start = offset ∧ Viable (ts.take k) ∧
      (t.kind ≠ .eof → ¬ Viable (ts.take (k + 1)) ∨
        expected = Expectation.integerIndex.text ∧ IsLargeIndex ts k ∧
          ¬ Viable (ts.take (k + 2))) := by
  obtain ⟨before, t, rest, s, hsplit, hrun, hstep⟩ := State.exists_of_run_eq_error h
  have hbefore : ∀ u ∈ before, u.word.IsGenuine := by
    have hdrop : us = before ++ (t :: rest).dropLast := by
      rw [← List.dropLast_append_of_ne_nil (List.cons_ne_nil t rest), ← hsplit, hts,
        List.dropLast_concat]
    exact fun u hu => hus u (hdrop ▸ List.mem_append_left _ hu)
  rw [hsplit]
  rcases State.step_eq_error_iff.1 hstep with ⟨-, hdepth⟩ | ⟨-, hreact⟩
  · cases hdepth
  · have hnot := not_viable_of_react hrun hreact
    rcases (reached_of_run hbefore hrun).answers hbefore t with
      (⟨x, herror⟩ | ⟨s', hok, -⟩) | ⟨number, hkept, ht, hindex, herror⟩
    · -- the token itself is refused
      obtain ⟨rfl, -, -⟩ :=
        ParseError.unexpectedToken.inj (Except.error.inj (hreact.symm.trans herror))
      refine ⟨before.length, t, by simp, rfl, ?_, fun _ => .inl ?_⟩
      · rw [List.take_left]
        exact viable_of_run hbefore hrun
      · rw [List.append_cons, List.take_left' (by simp)]
        exact hnot
    · cases hreact.symm.trans hok
    · -- the number before the token is no index
      obtain ⟨rfl, rfl, -⟩ :=
        ParseError.unexpectedToken.inj (Except.error.inj (hreact.symm.trans herror))
      obtain ⟨front, rfl, hlarge⟩ := isLargeIndex_of_run hbefore hrun hkept ht hindex
      obtain ⟨s₁, hfront, -⟩ := State.run_append_eq_ok_iff.1 hrun
      refine ⟨front.length, number, by simp, rfl, ?_, fun _ => .inr ⟨rfl, hlarge rest, ?_⟩⟩
      · rw [List.append_assoc, List.take_left]
        exact viable_of_run (fun u hu => hbefore u (List.mem_append_left _ hu)) hfront
      · rw [List.append_cons, List.take_left' (by simp)]
        exact hnot

end Parse

variable {text : String} {ts : List Token} {settings : Settings} {offset : Nat}
  {expected found : String}

/-- A syntax error is at the first token that cannot be right. The tokens before it begin an
expression. Unless the text only ends too early, they do not with that token; or it is an index
that is too large, and they do not when its bracket closes. -/
theorem first_fault (hscan : Token.scan text = .ok ts)
    (h : parse settings text = .error (.unexpectedToken offset expected found)) :
    ∃ k t, ts[k]? = some t ∧ t.start = offset ∧
      (∀ j u, ts[j]? = some u → u.start = offset → j = k) ∧ Viable (ts.take k) ∧
      (t.kind ≠ .eof → ¬ Viable (ts.take (k + 1)) ∨
        expected = Expectation.integerIndex.text ∧ IsLargeIndex ts k ∧
          ¬ Viable (ts.take (k + 2))) := by
  obtain ⟨us, hts, hus⟩ := Token.tokens_of_scan hscan
  rw [parse_of_scan hscan, hts] at h
  obtain ⟨k, t, hk, hstart, hrest⟩ :=
    exists_fault_of_run hus hts (hts ▸ run_of_ofTokens_eq_error hus h)
  refine ⟨k, t, hk, hstart, fun j u hj hu => ?_, hrest⟩
  exact Token.index_of_start hscan hj hk (hu.trans hstart.symm)

/-- The tokens of `a b`. -/
def twoNames : List Token :=
  [⟨.identifier, "a", 0⟩, ⟨.identifier, "b", 2⟩, .eof 3]

theorem scan_twoNames : Token.scan "a b" = .ok twoNames := by
  decide +kernel

theorem parse_twoNames :
    parse ⟨1⟩ "a b" = .error (.unexpectedToken 2 "end of input" "name 'b'") := by
  rw [parse_of_scan scan_twoNames]
  rfl

/-- A second name is the first token that cannot be right. -/
theorem first_fault_twoNames : Token.scan "a b" = .ok twoNames ∧
    parse ⟨1⟩ "a b" = .error (.unexpectedToken 2 "end of input" "name 'b'") ∧
    Viable (twoNames.take 1) ∧ ¬ Viable (twoNames.take 2) := by
  refine ⟨scan_twoNames, parse_twoNames, ?_⟩
  obtain ⟨k, t, hk, -, hplace, hviable, hfault⟩ := first_fault scan_twoNames parse_twoNames
  obtain rfl : 1 = k := hplace 1 ⟨.identifier, "b", 2⟩ rfl rfl
  obtain rfl := Option.some.inj hk
  refine ⟨hviable, (hfault nofun).resolve_right fun ⟨htext, _⟩ => ?_⟩
  exact absurd htext (by decide)

end MapExpr
