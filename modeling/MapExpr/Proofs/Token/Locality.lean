import MapExpr.Proofs.Token.Faults

/-!
# Faults of a scan are local

The fault of a scan is told by the text up to it and by the character there. An unexpected
character stays one whatever follows it, but for `!` in front of an equals sign, and an open quote
stays one until it comes again.

* `IsLocal`: what is known of a fault;
* `exists_isLocal_of_scan`: every fault of a scan is local.
-/

namespace MapExpr.Token

variable {text : String} {e : ParseError}

/-- The fault `e` of `text` is at the character `c`, which comes after the text `before`, and hangs
on these two alone. -/
structure IsLocal (text before : String) (c : Char) (e : ParseError) : Prop where
  begins : ∃ after, text = before ++ (.singleton c ++ after)
  offset_eq : before.utf8ByteSize = e.offset
  /-- The text before the fault is scanned, as the tokens that the stream gives before the fault. -/
  tokens : ∃ ts, scan before = .ok (ts ++ [eof e.offset]) ∧
    (Stream.ofString text).items = ts.map .ok ++ [.error e]
  /-- An unexpected character is that before every other text, unless the two make a token. -/
  unexpected : ∀ offset found, e = .unexpectedChar offset found → found = c ∧ ∀ x : String,
    scan (before ++ (.singleton c ++ x)) = .error e ↔ ¬ (c = '!' ∧ x.toList.head? = some '=')
  /-- An open quote is that as long as the text goes on without another one. -/
  unterminated : ∀ offset, e = .unterminatedLiteral offset → (c = '\x27' ∨ c = '"') ∧ ∀ x : String,
    (c ∉ x.toList → scan (text ++ x) = .error e) ∧
      (c ∈ x.toList → ∀ e', scan (text ++ x) = .error e' → e'.offset ≠ e.offset)

/-- The fault of a scan hangs on the text before it and on its character alone. -/
theorem exists_isLocal_of_scan (h : scan text = .error e) :
    ∃ before c, IsLocal text before c e := by
  obtain ⟨before, c, after, ts, rfl, rfl, hbreaks⟩ := exists_breaks_of_scan h
  have hnone := hbreaks.lexeme?_eq_none
  -- with another text after the character there is a fault exactly if it begins no lexeme there
  have hfault : ∀ x : String, scan (before ++ (.singleton c ++ x)) =
      .error (fault before.utf8ByteSize c) ↔ lexeme? (c :: x.toList) = none := fun x =>
    ⟨fun hx => lexeme?_eq_none_of_scan hx (offset_fault _ c), hbreaks.scan_eq_error⟩
  refine ⟨before, c, ⟨after, rfl⟩, (offset_fault _ c).symm, ?_, ?_, ?_⟩
  · refine ⟨ts, ?_, hbreaks.items_fault hnone⟩
    rw [offset_fault]
    exact hbreaks.scan_before
  · intro offset found he
    have hquote : ¬ (c = '\x27' ∨ c = '"') := fun hquote => by
      rw [fault, if_pos hquote] at he
      cases he
    obtain ⟨hsingle, hdouble⟩ := not_or.1 hquote
    refine ⟨?_, fun x => (hfault x).trans (lexeme?_foreign_eq_none_iff hsingle hdouble hnone _)⟩
    rw [fault, if_neg hquote] at he
    exact (ParseError.unexpectedChar.inj he).2.symm
  · intro offset he
    have hquote : c = '\x27' ∨ c = '"' := by
      by_contra hquote
      rw [fault, if_neg hquote] at he
      cases he
    have hafter : c ∉ after.toList := (lexeme?_quote_eq_none_iff hquote _).1 hnone
    have hnone_iff : ∀ x : String,
        lexeme? (c :: (after ++ x).toList) = none ↔ c ∉ x.toList := fun x => by
      rw [lexeme?_quote_eq_none_iff hquote, String.toList_append, List.mem_append, not_or]
      exact and_iff_right hafter
    refine ⟨hquote, fun x => ?_⟩
    rw [String.append_assoc, String.append_assoc]
    refine ⟨fun hx => (hfault _).2 ((hnone_iff x).2 hx), fun hx e' he' hoffset => ?_⟩
    rw [offset_fault] at hoffset
    exact (hnone_iff x).1 (lexeme?_eq_none_of_scan he' hoffset) hx

theorem scan_nameBang : scan "né!b" = .error (.unexpectedChar 3 '!') := by
  decide +kernel

/-- After a name of three bytes a `!` is unexpected in front of every character but an equals
sign. -/
theorem isLocal_nameBang : scan "né!b" = .error (.unexpectedChar 3 '!') ∧
    scan "né!!" = .error (.unexpectedChar 3 '!') ∧
    scan "né!=b" ≠ .error (.unexpectedChar 3 '!') := by
  obtain ⟨before, c, hlocal⟩ := exists_isLocal_of_scan scan_nameBang
  obtain ⟨after, htext⟩ := hlocal.begins
  obtain ⟨hc, hscan⟩ := hlocal.unexpected _ _ rfl
  have hbefore : before = "né" := by
    have hlist : "né!b".toList = before.toList ++ c :: after.toList := by
      rw [htext]
      simp
    have hsize : byteCount "né".toList = byteCount before.toList := by
      rw [byteCount_toList, byteCount_toList, hlocal.offset_eq]
      rfl
    exact (String.toList_inj.1 (eq_of_append_eq (s := "né".toList) hlist hsize).1).symm
  subst hbefore hc
  refine ⟨scan_nameBang, (hscan "!").2 (by decide), fun h => ?_⟩
  exact (hscan "=b").1 h (by decide)

end MapExpr.Token
