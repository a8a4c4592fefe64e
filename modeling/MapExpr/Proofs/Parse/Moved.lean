import MapExpr.Proofs.Parse.Faults
import MapExpr.Proofs.Parse.Results
import MapExpr.Proofs.Token.Spacing

/-!
# Where tokens stand

A reader looks at the kinds and texts of tokens. Where a token begins is only told in a fault, and
where the end marker does in the span of the whole text. So what is read moves with the tokens, and
texts with the same words are read alike.

* `Token.moved`, `State.moved`, `ParseError.moved`: what changes when a token that begins at `n`
  begins at `g n` instead;
* `State.step_moved`, `State.run_moved`: the step of a moved token, and the run over such tokens;
* `Word.numbered`, `run_eq_moved`: words that begin at their numbers in the row, and the run over
  them;
* `SameAnswer`, `sameAnswer_of_words`: texts with the same words;
* `parse_spaced`: a text and the texts that have other gaps between its tokens.
-/

namespace MapExpr

variable {g : Nat → Nat}

/-- The fault `e`, at the byte `offset`. -/
def ParseError.at (offset : Nat) : ParseError → ParseError
  | unexpectedChar _ found => .unexpectedChar offset found
  | unterminatedLiteral _ => .unterminatedLiteral offset
  | unexpectedToken _ expected found => .unexpectedToken offset expected found
  | depthExceeded _ limit => .depthExceeded offset limit

@[simp] theorem ParseError.offset_at (offset : Nat) (e : ParseError) :
    (e.at offset).offset = offset := by
  cases e <;> rfl

@[simp] theorem ParseError.at_at (m n : Nat) (e : ParseError) : (e.at m).at n = e.at n := by
  cases e <;> rfl

def ParseError.moved (g : Nat → Nat) (e : ParseError) : ParseError :=
  e.at (g e.offset)

namespace Token

def moved (g : Nat → Nat) (t : Token) : Token :=
  { t with start := g t.start }

@[simp] theorem kind_moved (t : Token) : (t.moved g).kind = t.kind := rfl

@[simp] theorem text_moved (t : Token) : (t.moved g).text = t.text := rfl

@[simp] theorem word_moved (t : Token) : (t.moved g).word = t.word := rfl

theorem stop_moved {t : Token} (h : t.text = "") : (t.moved g).span.stop = g t.span.stop := by
  simp [span, moved, h]

end Token

namespace Parse

open Outcome

def State.moved (g : Nat → Nat) : State → State
  | .bracketNumber number head path hole => .bracketNumber (number.moved g) head path hole
  | .accepted parsed => .accepted ⟨parsed.root, ⟨parsed.span.start, g parsed.span.stop⟩⟩
  | s => s

theorem State.exists_of_moved_eq_accepted {s : State} {A : Parsed}
    (h : s.moved g = .accepted A) : ∃ B, s = .accepted B ∧ B.root = A.root := by
  cases s <;> cases h
  exact ⟨_, rfl, rfl⟩

/-- The state or the fault, moved. -/
def movedResult (g : Nat → Nat) : Except ParseError State → Except ParseError State
  | .ok s => .ok (s.moved g)
  | .error e => .error (e.moved g)

namespace Outcome

def moved (g : Nat → Nat) (o : Outcome) : Outcome :=
  ⟨movedResult g o.value, o.events⟩

theorem moved_bind {α : Type} (x : Traced α) (f : α → Outcome) :
    moved g (x >>= f) = x >>= fun a => moved g (f a) := rfl

theorem moved_within (limit depth : Nat) (t : Token) (o : Outcome) :
    (within limit depth t o).moved g = within limit depth (t.moved g) (o.moved g) := by
  unfold within
  split <;> rfl

end Outcome

/-! ## Ends -/

section Ends

variable {t : Token} (ht : t.kind = .eof → t.text = "")

include ht

theorem ExprHole.resume_moved (hole : ExprHole) (e : Expr) :
    hole.resume e (t.moved g) = (hole.resume e t).moved g := by
  cases hole with
  | root =>
    simp only [resume, Token.kind_moved]
    split
    · rename_i hkind
      rw [Token.stop_moved (ht hkind)]
      rfl
    · rfl
  | group | argument | filter =>
    simp only [resume, Token.kind_moved]
    split <;> rfl

theorem afterOperand_moved (e : Expr) (chain : Chain) (hole : ExprHole) :
    afterOperand e chain hole (t.moved g) = (afterOperand e chain hole t).moved g := by
  simp only [afterOperand, Token.kind_moved]
  split
  · rw [moved_bind]
    refine congrArg (_ >>= ·) (funext fun next => ?_)
    cases next <;> rfl
  · rw [moved_bind]
    exact congrArg (_ >>= ·) (funext fun e => hole.resume_moved ht e)

theorem SelectorHole.resume_moved (hole : SelectorHole) (s : Selector) :
    hole.resume s (t.moved g) = (hole.resume s t).moved g := by
  cases hole with
  | operand chain outer =>
    by_cases hunion : chain.isEmpty = true ∧ t.kind = .pipe
    · rw [resume, resume, Token.kind_moved, if_pos hunion, if_pos hunion]
      rfl
    · rw [resume, resume, Token.kind_moved, if_neg hunion, if_neg hunion]
      exact afterOperand_moved ht _ chain outer
  | member before outer =>
    by_cases hunion : t.kind = .pipe
    · rw [resume, resume, Token.kind_moved, if_pos hunion, if_pos hunion]
      rfl
    · rw [resume, resume, Token.kind_moved, if_neg hunion, if_neg hunion, moved_bind]
      exact congrArg (_ >>= ·) (funext fun e => outer.resume_moved ht e)
  | _ =>
    simp only [resume, Token.kind_moved]
    split <;> rfl

theorem afterStep_moved (path : Path) (hole : SelectorHole) :
    afterStep path hole (t.moved g) = (afterStep path hole t).moved g := by
  simp only [afterStep, Token.kind_moved]
  split
  · rfl
  · exact hole.resume_moved ht _

theorem afterStepName_moved (head : StepHead) (path : Path) (hole : SelectorHole) :
    afterStepName head path hole (t.moved g) = (afterStepName head path hole t).moved g := by
  simp only [afterStepName, Token.kind_moved]
  split
  · rfl
  · exact afterStep_moved ht _ hole

theorem afterFirstName_moved (isAttribute : Bool) (name : String) (path : Path)
    (hole : SelectorHole) : afterFirstName isAttribute name path hole (t.moved g) =
      (afterFirstName isAttribute name path hole t).moved g := by
  simp only [afterFirstName, Token.kind_moved]
  split
  · rfl
  · exact afterStepName_moved ht _ path hole

end Ends

/-! ## Beginnings -/

theorem beginStep_moved (path : Path) (hole : SelectorHole) (t : Token) :
    beginStep path hole (t.moved g) = (beginStep path hole t).moved g := by
  simp only [beginStep, Token.kind_moved]
  split <;> rfl

theorem beginSelector_moved (hole : SelectorHole) (t : Token) :
    beginSelector hole (t.moved g) = (beginSelector hole t).moved g := by
  simp only [beginSelector, Token.kind_moved]
  split
  · rfl
  · rfl
  · exact beginStep_moved _ hole t

theorem beginConstant_moved (chain : Chain) (hole : ExprHole) (t : Token) :
    beginConstant chain hole (t.moved g) = (beginConstant chain hole t).moved g := by
  have hconstant : constant? (t.moved g) = constant? t := rfl
  simp only [beginConstant, hconstant]
  split <;> rfl

theorem beginOperand_moved (chain : Chain) (hole : ExprHole) (t : Token) :
    beginOperand chain hole (t.moved g) = (beginOperand chain hole t).moved g := by
  simp only [beginOperand, Token.kind_moved]
  split
  · exact beginConstant_moved chain hole t
  · exact beginConstant_moved chain hole t
  · exact beginConstant_moved chain hole t
  · rfl
  · rfl
  · rfl
  · by_cases hselector : t.kind.startsSelector = true
    · rw [if_pos hselector, if_pos hselector]
      exact beginSelector_moved _ t
    · rw [if_neg hselector, if_neg hselector]
      rfl

theorem beginExpression_moved (limit : Nat) (hole : ExprHole) (t : Token) :
    beginExpression limit hole (t.moved g) = (beginExpression limit hole t).moved g := by
  rw [beginExpression, beginExpression, moved_within, beginOperand_moved]

/-! ## Steps and runs -/

theorem State.step_moved {t : Token} (limit : Nat) (s : State)
    (ht : t.kind = .eof → t.text = "") :
    (s.moved g).step limit (t.moved g) = (s.step limit t).moved g := by
  cases s with
  | expressionDue hole => exact beginExpression_moved limit hole t
  | operandDue chain hole => exact beginOperand_moved chain hole t
  | operandDone e chain hole => exact afterOperand_moved ht e chain hole
  | selectorDue hole => exact beginSelector_moved hole t
  | selectorDone s hole => exact hole.resume_moved ht s
  | stepDue path hole => exact beginStep_moved path hole t
  | firstName isAttribute name path hole => exact afterFirstName_moved ht isAttribute name path hole
  | stepName head path hole => exact afterStepName_moved ht head path hole
  | stepDone path hole => exact afterStep_moved ht path hole
  | dollarName name chain hole =>
    simp only [step, moved, Token.kind_moved]
    split
    · rfl
    · exact afterOperand_moved ht _ chain hole
  | leadingName name chain hole =>
    simp only [step, moved, Token.kind_moved]
    split
    · rfl
    · exact afterFirstName_moved ht _ name _ _
  | callOpened withDollar name chain hole =>
    simp only [step, moved, Token.kind_moved]
    split
    · rfl
    · exact beginExpression_moved limit _ t
  | scopedDue hole =>
    simp only [step, moved, moved_within, beginSelector_moved]
  | bracket head path hole =>
    simp only [step, moved, Token.kind_moved]
    split
    · rfl
    · by_cases hwhole : t.isWhole = true
      · have hwhole' : (t.moved g).isWhole = true := hwhole
        rw [if_pos hwhole, if_pos hwhole']
        rfl
      · have hwhole' : ¬ (t.moved g).isWhole = true := hwhole
        rw [if_neg hwhole, if_neg hwhole']
        exact beginExpression_moved limit _ t
  | bracketNumber number head path hole =>
    have hconstant : constant? (number.moved g) = constant? number := rfl
    simp only [step, moved, Token.kind_moved, Token.text_moved, hconstant]
    split
    · split <;> rfl
    · rw [moved_within]
      refine congrArg (within limit _ _) ?_
      split
      · exact afterOperand_moved ht _ .empty _
      · rfl
  | indexed i head path hole =>
    simp only [step, moved, Token.kind_moved]
    split
    · rfl
    · exact afterStep_moved ht _ hole
  | filtered f head path hole =>
    simp only [step, moved, Token.kind_moved]
    split
    · rfl
    · exact afterStep_moved ht _ hole
  | secondBracket f head path hole =>
    simp only [step, moved, Token.kind_moved, Token.text_moved]
    split
    · split <;> rfl
    · rfl
  | accepted parsed => rfl
  | dollar | selectorDollar | nodeNameDue | localNameDue | secondIndex =>
    simp only [step, moved, Token.kind_moved]
    split <;> rfl

/-- What is read of moved tokens is what is read of the tokens, moved. -/
theorem State.run_moved {ts : List Token} (limit : Nat) (s : State)
    (hts : ∀ t ∈ ts, t.kind = .eof → t.text = "") :
    (s.moved g).run limit (ts.map (Token.moved g)) = movedResult g (s.run limit ts) := by
  induction ts generalizing s with
  | nil => rfl
  | cons t ts ih =>
    obtain ⟨ht, hts⟩ := List.forall_mem_cons.1 hts
    have hstep : ((s.moved g).step limit (t.moved g)).value =
        movedResult g (s.step limit t).value := congrArg Traced.value (step_moved limit s ht)
    rw [List.map_cons, run_cons, run_cons, hstep]
    cases (s.step limit t).value with
    | error e => rfl
    | ok s' => exact ih s' hts

end Parse

/-! ## Numbered tokens -/

/-- Tokens of the given words that begin at their numbers in the row. -/
def Word.numbered (ws : List Word) : List Token :=
  ws.mapIdx fun i w => ⟨w.kind, w.text, i⟩

theorem Word.getElem?_of_mem_numbered {ws : List Word} {t : Token} (h : t ∈ numbered ws) :
    ws[t.start]? = some t.word := by
  obtain ⟨i, hi, rfl⟩ := List.mem_mapIdx.1 h
  exact List.getElem?_eq_getElem hi

theorem Word.map_word_numbered (ws : List Word) : (numbered ws).map Token.word = ws := by
  refine List.ext_getElem? fun i => ?_
  rw [List.getElem?_map, numbered, List.getElem?_mapIdx]
  cases ws[i]? <;> rfl

/-- Where the token with a number begins. -/
def Token.startOf (ts : List Token) (i : Nat) : Nat :=
  (ts[i]?.map Token.start).getD 0

/-- Every row of tokens is that of its words, moved. -/
theorem Token.map_moved_numbered (ts : List Token) :
    (Word.numbered (ts.map Token.word)).map (moved (startOf ts)) = ts := by
  refine List.ext_getElem? fun i => ?_
  rw [List.getElem?_map, Word.numbered, List.getElem?_mapIdx, List.getElem?_map]
  cases hi : ts[i]? with
  | none => rfl
  | some t => simp [moved, startOf, Token.word, hi]

open Parse

variable {ts us : List Token}

/-- Tokens are read as their words are, moved. -/
theorem run_eq_moved (limit : Nat) (hts : ∀ t ∈ ts, t.kind = .eof → t.text = "") :
    start.run limit ts =
      movedResult (Token.startOf ts) (start.run limit (Word.numbered (ts.map Token.word))) := by
  have hnumbered : ∀ t ∈ Word.numbered (ts.map Token.word), t.kind = .eof → t.text = "" := by
    intro t ht
    have hmem := List.mem_of_getElem? (Word.getElem?_of_mem_numbered ht)
    obtain ⟨u, hu, hword⟩ := List.mem_map.1 hmem
    have hkind : u.kind = t.kind := congrArg Word.kind hword
    have htext : u.text = t.text := congrArg Word.text hword
    rw [← hkind, ← htext]
    exact hts u hu
  have hmoved := State.run_moved (g := Token.startOf ts) limit start hnumbered
  rwa [Token.map_moved_numbered] at hmoved

/-! ## Texts with the same words -/

/-- Two texts with the tokens `ts` and `us` are parsed as the same tree, or the same fault is found
at the tokens with the same number. -/
inductive SameAnswer (ts us : List Token) :
    Except ParseError Parsed → Except ParseError Parsed → Prop
  | parsed {A B : Parsed} : A.root = B.root → A.root.same B.root = true →
      SameAnswer ts us (.ok A) (.ok B)
  | refused {i : Nat} {t u : Token} {e : ParseError} : ts[i]? = some t → us[i]? = some u →
      e.offset = t.start → SameAnswer ts us (.error e) (.error (e.at u.start))

theorem text_eq_of_eof {text : String} (h : Token.scan text = .ok ts) :
    ∀ t ∈ ts, t.kind = .eof → t.text = "" := by
  obtain ⟨us, rfl, hus⟩ := Token.tokens_of_scan h
  intro t ht hkind
  rcases List.mem_append.1 ht with hmem | hlast
  · exact absurd hkind (hus t hmem).kind_ne_eof
  · obtain rfl := List.mem_singleton.1 hlast
    rfl

/-- The fault of a run over numbered words is at the word with its offset as number. -/
theorem getElem?_of_numbered_eq_error {limit : Nat} {ws : List Word} {e : ParseError}
    (hws : ∀ w ∈ ws.dropLast, w.IsGenuine) (h : start.run limit (Word.numbered ws) = .error e) :
    ∃ w, ws[e.offset]? = some w := by
  have hgenuine : ∀ t ∈ (Word.numbered ws).dropLast, t.word.IsGenuine := by
    refine fun t ht => hws _ ?_
    rw [← Word.map_word_numbered ws, ← List.map_dropLast]
    exact List.mem_map_of_mem ht
  obtain ⟨t, ht, hblames⟩ := exists_blamed_of_run hgenuine h
  rw [hblames.offset_eq]
  exact ⟨_, Word.getElem?_of_mem_numbered ht⟩

/-- A reader has the same answer for texts with the same words. -/
theorem sameAnswer_of_words {text text' : String}
    (hts : Token.scan text = .ok ts) (hus : Token.scan text' = .ok us)
    (hwords : us.map Token.word = ts.map Token.word) (settings : Settings) :
    SameAnswer ts us (parse settings text) (parse settings text') := by
  have hread := run_eq_moved settings.maxDepth (text_eq_of_eof hts)
  have hread' := run_eq_moved settings.maxDepth (text_eq_of_eof hus)
  rw [hwords] at hread'
  cases hrun : start.run settings.maxDepth (Word.numbered (ts.map Token.word)) with
  | ok s =>
    rw [hrun] at hread hread'
    cases hparse : parse settings text with
    | error e => cases hread.symm.trans ((parse_eq_error_iff hts).1 hparse)
    | ok A =>
      have haccepted := Except.ok.inj (hread.symm.trans ((parse_eq_ok_iff hts).1 hparse))
      obtain ⟨B, rfl, hroot⟩ := State.exists_of_moved_eq_accepted haccepted
      rw [(parse_eq_ok_iff hus).2 hread']
      have hsame := Expr.same_self_of_isNaN (isNaN_numbers_of_parse hparse)
      exact .parsed hroot.symm (by rwa [hroot])
  | error e =>
    rw [hrun] at hread hread'
    rw [(parse_eq_error_iff hts).2 hread, (parse_eq_error_iff hus).2 hread']
    have hgenuine : ∀ w ∈ (ts.map Token.word).dropLast, w.IsGenuine := by
      rw [← List.map_dropLast]
      exact List.forall_mem_map.2 (isGenuine_of_mem_dropLast hts)
    obtain ⟨w, hw⟩ := getElem?_of_numbered_eq_error hgenuine hrun
    have hw' := hw
    rw [← hwords] at hw'
    rw [List.getElem?_map] at hw hw'
    obtain ⟨t, ht, -⟩ := Option.map_eq_some_iff.1 hw
    obtain ⟨u, hu, -⟩ := Option.map_eq_some_iff.1 hw'
    have hstart : Token.startOf ts e.offset = t.start := by rw [Token.startOf, ht]; rfl
    have hstart' : Token.startOf us e.offset = u.start := by rw [Token.startOf, hu]; rfl
    have hrefused : SameAnswer ts us (.error (e.moved (Token.startOf ts)))
        (.error ((e.moved (Token.startOf ts)).at u.start)) :=
      .refused ht hu (by rw [ParseError.moved, ParseError.offset_at, hstart])
    rwa [ParseError.moved, ParseError.at_at, ← hstart'] at hrefused

/-- Gaps between tokens do not matter: a text with other gaps that keep its tokens apart has the
same words and, under every limit, the same answer. -/
theorem parse_spaced {text : String} {ws : List String} (h : Token.scan text = .ok ts)
    (hws : Token.Separates ws ts) :
    ∃ us, Token.scan (Token.spaced ws ts) = .ok us ∧ us.map Token.word = ts.map Token.word ∧
      ∀ settings, SameAnswer ts us (parse settings text) (parse settings (Token.spaced ws ts)) := by
  obtain ⟨us, hus, hwords⟩ := Token.scan_spaced h hws
  exact ⟨us, hus, hwords, sameAnswer_of_words h hus hwords⟩

theorem scan_closeComparison : Token.scan "a<-1" =
    .ok [⟨.identifier, "a", 0⟩, ⟨.less, "<", 1⟩, ⟨.number, "-1", 2⟩, .eof 4] := by
  decide +kernel

/-- A comparison without blanks, and with some of every kind. -/
theorem parse_spaced_comparison : ∃ us, Token.scan "\ta <\n-1\r" = .ok us ∧
    us.map Token.word = [⟨.identifier, "a"⟩, ⟨.less, "<"⟩, ⟨.number, "-1"⟩, ⟨.eof, ""⟩] ∧
    ∀ settings, SameAnswer
      [⟨.identifier, "a", 0⟩, ⟨.less, "<", 1⟩, ⟨.number, "-1", 2⟩, .eof 4] us
      (parse settings "a<-1") (parse settings "\ta <\n-1\r") :=
  have hws : Token.Separates ["\t", " ", "\n", "\r"] _ := ⟨rfl, by decide, by decide⟩
  parse_spaced scan_closeComparison hws

end MapExpr
