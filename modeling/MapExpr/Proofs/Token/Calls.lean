import MapExpr.Proofs.Token.Faults

/-!
# A stream asked item by item

A stream gives its items one at a time, and nothing more once they have all been given. Whoever asks
for them, and stops and goes on, gets the tokens of the text in order and then the end marker or the
fault that a scan of the whole text has.

* `Stream.call`, `Stream.calls`: asking once, and any number of times;
* `Stream.answers_calls`, `Stream.items_calls`: the answers, and what is left after them;
* `Unrolls`, `exists_unrolls`: what a text is to those who ask and to those who scan.
-/

namespace MapExpr.Token

namespace Stream

variable {s s' : Stream} {item : Except ParseError Token} {items : List (Except ParseError Token)}
  {t : Token} {ts : List Token}

/-- The answer to one call for the next item, and the stream after it. -/
def call (s : Stream) : Option (Except ParseError Token) × Stream :=
  match s.next? with
  | some (item, s') => (some item, s')
  | none => (none, s)

/-- The answers to `n` calls, one after the other, and the stream after them. -/
def calls : Nat → Stream → List (Option (Except ParseError Token)) × Stream
  | 0, s => ([], s)
  | n + 1, s => (s.call.1 :: (calls n s.call.2).1, (calls n s.call.2).2)

/-- The text that has not been read. -/
def left : Stream → List Char
  | reading _ rest => rest
  | exhausted => []

/-! ## One call -/

theorem items_eq_nil (h : s.next? = none) : s.items = [] := by
  rw [items]
  split <;> simp_all

theorem answer_call (s : Stream) : s.call.1 = s.items[0]? := by
  cases h : s.next? with
  | none => simp [call, h, items_eq_nil h]
  | some next => simp [call, h, items_of_next? h]

theorem items_call (s : Stream) : s.call.2.items = s.items.tail := by
  cases h : s.next? with
  | none => simp [call, h, items_eq_nil h]
  | some next => simp [call, h, items_of_next? h]

/-- The first item is the one that comes next. -/
theorem next?_of_items (h : s.items = item :: items) : s.next? = some (item, s.call.2) := by
  cases hnext : s.next? with
  | none => cases (items_eq_nil hnext).symm.trans h
  | some next =>
    obtain ⟨item', s'⟩ := next
    have hitems := items_of_next? hnext
    rw [h] at hitems
    simp [call, hnext, (List.cons.inj hitems).1]

/-- A token but the end marker has a text, and takes it and the gap before it. -/
theorem left_of_next? (h : s.next? = some (.ok t, s')) (ht : t.kind ≠ .eof) :
    0 < t.text.utf8ByteSize ∧ ∃ gap, IsGap gap ∧ s.left = gap ++ (t.text.toList ++ s'.left) := by
  cases s with
  | exhausted => cases h
  | reading offset rest =>
    have hgap : IsGap (rest.takeWhile isBlank) := List.all_eq_true.1 List.all_takeWhile
    have hsplit : rest.takeWhile isBlank ++ rest.dropWhile isBlank = rest :=
      List.takeWhile_append_dropWhile
    simp only [next?] at h
    split at h
    · simp only [Option.some.injEq, Prod.mk.injEq, Except.ok.injEq] at h
      obtain ⟨rfl, -⟩ := h
      exact absurd rfl ht
    · rename_i c body hbody
      split at h
      · rename_i l hl
        simp only [Option.some.injEq, Prod.mk.injEq, Except.ok.injEq] at h
        obtain ⟨rfl, rfl⟩ := h
        obtain ⟨hcut, hne⟩ := splits_of_lexeme? hl
        rw [utf8ByteSize_ofList, String.toList_ofList]
        refine ⟨byteCount_pos hne, _, hgap, ?_⟩
        rw [left, left, hcut, ← hbody, hsplit]
      · simp at h

/-! ## Any number of calls -/

/-- The answers to the calls are the items, and nothing when they have been given. -/
theorem answers_calls (n : Nat) (s : Stream) :
    (s.calls n).1 = (List.range n).map fun i => s.items[i]? := by
  induction n generalizing s with
  | zero => rfl
  | succ n ih =>
    rw [List.range_succ_eq_map, List.map_cons, List.map_map, calls, answer_call, ih, items_call]
    refine congrArg (_ :: ·) (List.map_congr_left fun i _ => ?_)
    rw [List.getElem?_tail]
    rfl

/-- After the calls the other items are left. -/
theorem items_calls (n : Nat) (s : Stream) : (s.calls n).2.items = s.items.drop n := by
  induction n generalizing s with
  | zero => rfl
  | succ n ih => rw [calls, ih, items_call, List.drop_tail]

theorem calls_succ (n : Nat) (s : Stream) : (s.calls (n + 1)).2 = (s.calls n).2.call.2 := by
  induction n generalizing s with
  | zero => rfl
  | succ n ih => exact ih s.call.2

/-- Tokens that are still to come take a byte each. -/
theorem length_le_of_items (h : s.items = ts.map .ok ++ items) (hts : ∀ t ∈ ts, t.kind ≠ .eof) :
    ts.length ≤ byteCount s.left := by
  induction ts generalizing s with
  | nil => exact Nat.zero_le _
  | cons t ts ih =>
    obtain ⟨ht, hts⟩ := List.forall_mem_cons.1 hts
    obtain ⟨hpos, gap, -, hleft⟩ := left_of_next? (next?_of_items h) ht
    have hrest : s.call.2.items = ts.map .ok ++ items := by
      rw [items_call, h]
      rfl
    have hle := ih hrest hts
    rw [hleft, byteCount_append, byteCount_append, byteCount_toList, List.length_cons]
    omega

end Stream

/-! ## The items of a text -/

/-- The text `text` is the tokens `ts` and the item `last`, for those who ask for one item after the
other and for those who scan it at once. -/
structure Unrolls (text : String) (ts : List Token) (last : Except ParseError Token) : Prop where
  length_le : ts.length ≤ text.utf8ByteSize
  /-- Only the last item is the end marker or a fault. -/
  last_eq : last = .ok (eof text.utf8ByteSize) ∨ ∃ e, last = .error e
  kind_ne_eof : ∀ t ∈ ts, t.kind ≠ .eof
  /-- Each call for a token reads a gap and the text of the token, which is not empty. -/
  takes : ∀ i t, ts[i]? = some t → 0 < t.text.utf8ByteSize ∧ ∃ gap, IsGap gap ∧
    ((Stream.ofString text).calls i).2.left =
      gap ++ (t.text.toList ++ ((Stream.ofString text).calls (i + 1)).2.left)
  scan_eq : scan text = last.map fun marker => ts ++ [marker]
  /-- The calls give the items, and nothing after the last one. -/
  answers : ∀ n, ((Stream.ofString text).calls n).1 =
    (List.range n).map fun i => (ts.map Except.ok ++ [last])[i]?
  /-- After any number of calls the other items are left, for those who take them all and for those
  who go on asking. -/
  remaining : ∀ n, ((Stream.ofString text).calls n).2.items = (ts.map Except.ok ++ [last]).drop n ∧
    ∀ m, (((Stream.ofString text).calls n).2.calls m).1 =
      (List.range m).map fun i => ((ts.map Except.ok ++ [last]).drop n)[i]?

variable {text : String} {ts : List Token} {last : Except ParseError Token}

theorem unrolls_of_items (hitems : (Stream.ofString text).items = ts.map .ok ++ [last])
    (hlast : last = .ok (eof text.utf8ByteSize) ∨ ∃ e, last = .error e)
    (hts : ∀ t ∈ ts, t.kind ≠ .eof) (hscan : scan text = last.map fun marker => ts ++ [marker]) :
    Unrolls text ts last where
  length_le := by
    have hle := Stream.length_le_of_items hitems hts
    rwa [Stream.ofString, Stream.left, byteCount_toList] at hle
  last_eq := hlast
  kind_ne_eof := hts
  takes i t ht := by
    obtain ⟨hi, rfl⟩ := List.getElem?_eq_some_iff.1 ht
    have hnext : ((Stream.ofString text).calls i).2.items =
        .ok ts[i] :: (ts.map Except.ok ++ [last]).drop (i + 1) := by
      have hlength : i < (ts.map Except.ok ++ [last]).length := by
        simp
        omega
      rw [Stream.items_calls, hitems, List.drop_eq_getElem_cons hlength,
        List.getElem_append_left (by simpa using hi), List.getElem_map]
    rw [Stream.calls_succ]
    exact Stream.left_of_next? (Stream.next?_of_items hnext) (hts _ (List.getElem_mem hi))
  scan_eq := hscan
  answers n := by rw [Stream.answers_calls, hitems]
  remaining n := by
    have hrest := Stream.items_calls n (Stream.ofString text)
    rw [hitems] at hrest
    exact ⟨hrest, fun m => by rw [Stream.answers_calls, hrest]⟩

/-- Every text is some tokens and one last item, the end marker or a fault, however its items are
asked for. -/
theorem exists_unrolls (text : String) : ∃ ts last, Unrolls text ts last := by
  cases hscan : scan text with
  | ok us =>
    obtain ⟨ts, rfl, hts⟩ := tokens_of_scan hscan
    refine ⟨ts, _, unrolls_of_items ?_ (.inl rfl) (fun t ht => (hts t ht).kind_ne_eof) hscan⟩
    rw [scan_eq_ok_iff.1 hscan, List.map_append]
    rfl
  | error e =>
    obtain ⟨before, c, after, ts, rfl, rfl, hbreaks⟩ := exists_breaks_of_scan hscan
    obtain ⟨body, hbody, hgenuine⟩ := tokens_of_scan hbreaks.scan_before
    obtain ⟨rfl, -⟩ := List.append_inj' hbody rfl
    exact ⟨ts, _, unrolls_of_items (hbreaks.items_fault hbreaks.lexeme?_eq_none) (.inr ⟨_, rfl⟩)
      (fun t ht => (hgenuine t ht).kind_ne_eof) hscan⟩

end MapExpr.Token
