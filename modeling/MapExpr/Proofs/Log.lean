import MapExpr.Log
import MapExpr.Proofs.Grammar.Language
import MapExpr.Proofs.Parse.Noted

/-!
# What a parse reports

The lines of a text that is parsed are the operator nodes of its tree in post-order, between a line
for its tokens and one for its result. A text that is not parsed has its fault in the last line, and
no other line if it has no tokens.

* `Parse.events_ofTokens`: the events of a parse are those of its tree;
* `log_of_scan`, `log_of_scan_eq_error`: the lines of a text with tokens, and of one without;
* `log_eq_postorder`: the lines by the result.
-/

namespace MapExpr

open Parse

variable {settings : Settings} {text : String} {ts : List Token} {parsed : Parsed} {e : ParseError}

/-- The reader has noted the operator nodes of the tree, and nothing else. -/
theorem Parse.events_ofTokens (h : (ofTokens settings ts).value = .ok parsed) :
    (ofTokens settings ts).events = (Node.expr parsed.root).events := by
  have hread : (read settings.maxDepth start ts).value = .ok (.accepted parsed) :=
    ofTokens_eq_ok_iff.1 h
  have hnoted : (Node.expr parsed.root).events = (read settings.maxDepth start ts).events :=
    read_notes settings.maxDepth start ts _ hread
  rw [hnoted, ofTokens, Traced.events_bind, hread]
  exact List.append_nil _

/-- The text has a line for its tokens, one for every event and one for the result. -/
theorem log_of_scan (h : Token.scan text = .ok ts) (settings : Settings) :
    log settings text = .scanned text ts :: ((ofTokens settings ts).events.map .event ++
      [.result text (parse settings text)]) := by
  rw [log, h, parse_of_scan h]
  rfl

theorem log_of_scan_eq_error (h : Token.scan text = .error e) (settings : Settings) :
    log settings text = [.result text (parse settings text)] := by
  rw [log, h, parse_of_scan_eq_error h]

/-- A text that is parsed is reported by its number of tokens, by its operator nodes, each after
the nodes in it, and by its kind. A text that is not is reported by its fault, after lines that
matter less. -/
theorem log_eq_postorder (settings : Settings) (text : String) :
    (∀ parsed, parse settings text = .ok parsed → ∃ tokens, Token.scan text = .ok tokens ∧
      log settings text =
        ⟨.trace, "scanned " ++ toString tokens.length ++ " tokens from " ++
          toString text.utf8ByteSize ++ " bytes"⟩ ::
        (((Node.expr parsed.root).postorder.filterMap Node.event?).map
          (fun event => ⟨.trace, event.message⟩) ++
        [⟨.debug, "parsed " ++ parsed.root.kindName ++ " over " ++ toString text.utf8ByteSize ++
          " bytes"⟩])) ∧
    ∀ e, parse settings text = .error e → ∃ lines,
      log settings text =
        lines ++ [⟨.debug, "failed to parse '" ++ text ++ "': " ++ e.message⟩] ∧
      (∀ line ∈ lines, line.level = .trace) ∧
      ((∃ e', Token.scan text = .error e') → lines = []) := by
  cases hscan : Token.scan text with
  | error e' =>
    rw [log_of_scan_eq_error hscan, parse_of_scan_eq_error hscan]
    constructor
    · intro parsed h
      cases h
    · intro e h
      obtain rfl := Except.error.inj h
      exact ⟨[], rfl, List.forall_mem_nil _, fun _ => rfl⟩
  | ok ts =>
    rw [log_of_scan hscan]
    constructor
    · intro parsed h
      refine ⟨ts, rfl, ?_⟩
      rw [events_ofTokens (parse_of_scan hscan ▸ h), h]
      rfl
    · intro e h
      refine ⟨.scanned text ts :: (ofTokens settings ts).events.map .event, ?_, ?_, ?_⟩
      · rw [h]
        rfl
      · exact List.forall_mem_cons.2 ⟨rfl, List.forall_mem_map.2 fun _ _ => rfl⟩
      · rintro ⟨e', herror⟩
        cases herror

/-- A selector of one step. -/
def oneStep (name : String) : Selector :=
  .steps false [.named false (.plain name) .absent]

theorem scan_nestedOperators : Token.scan "(a < b * c) or f(d | e)" =
    .ok [⟨.leftParen, "(", 0⟩, ⟨.identifier, "a", 1⟩, ⟨.less, "<", 3⟩, ⟨.identifier, "b", 5⟩,
      ⟨.star, "*", 7⟩, ⟨.identifier, "c", 9⟩, ⟨.rightParen, ")", 10⟩, ⟨.orWord, "or", 12⟩,
      ⟨.identifier, "f", 15⟩, ⟨.leftParen, "(", 16⟩, ⟨.identifier, "d", 17⟩, ⟨.pipe, "|", 19⟩,
      ⟨.identifier, "e", 21⟩, ⟨.rightParen, ")", 22⟩, .eof 23] := by
  decide +kernel

def nestedOperators : Expr :=
  .or [.group (.comparison .less (.selector (oneStep "a"))
      (.multiplicative (.selector (oneStep "b")) [(.multiply, .selector (oneStep "c"))])),
    .call (.mk false "f" [.union [oneStep "d", oneStep "e"]])]

theorem parse_nestedOperators :
    parse ⟨9⟩ "(a < b * c) or f(d | e)" = .ok ⟨nestedOperators, ⟨0, 23⟩⟩ := by
  rw [parse_eq_ok_iff scan_nestedOperators]
  rfl

theorem postorder_nestedOperators :
    (Node.expr nestedOperators).postorder.filterMap Node.event? =
      [.multiplicative 2, .comparison .less, .union 2, .or 2] := by
  simp only [nestedOperators, oneStep, Node.postorder_eq, Node.parts, List.flatMap_cons,
    List.flatMap_nil, List.map_cons, List.map_nil, List.append_nil, List.nil_append,
    List.cons_append]
  rfl

/-- The operators in the group and in the argument come before the one around them. -/
theorem log_nestedOperators :
    log ⟨9⟩ "(a < b * c) or f(d | e)" =
      [⟨.trace, "scanned 15 tokens from 23 bytes"⟩,
        ⟨.trace, "multiplicative chain of 2 operands"⟩, ⟨.trace, "comparison Less"⟩,
        ⟨.trace, "union of 2 selectors"⟩, ⟨.trace, "or-chain of 2 operands"⟩,
        ⟨.debug, "parsed or over 23 bytes"⟩] ∧
    log ⟨9⟩ "a ! b" =
      [⟨.debug, "failed to parse 'a ! b': unexpected character '!' at offset 2"⟩] := by
  constructor
  · obtain ⟨tokens, hscan, hlog⟩ := (log_eq_postorder ⟨9⟩ _).1 _ parse_nestedOperators
    obtain rfl := Except.ok.inj (scan_nestedOperators.symm.trans hscan)
    rw [hlog, postorder_nestedOperators]
    decide
  · have hscan : Token.scan "a ! b" = .error (.unexpectedChar 2 '!') := by
      decide +kernel
    obtain ⟨lines, hlog, -, hlines⟩ :=
      (log_eq_postorder ⟨9⟩ _).2 _ (parse_of_scan_eq_error hscan _)
    rw [hlog, hlines ⟨_, hscan⟩]
    decide

end MapExpr
