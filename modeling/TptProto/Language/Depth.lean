import TptProto.Language.Terminates

/-! The recursion of the schema parser: of `parse_message`, which has a guard, and of
`parse_constant`, which has none. -/

namespace TptProto.Language

open TptProto.Foundation

/-- The calls of `parse_message`, by the parser at the start of each. -/
abbrev Entries := Parser → Parser → Prop

/-- The recursive calls that are under way with this one, which it counts too. -/
def ConstantCall.depth (call : ConstantCall) : Nat := call.state.depth + call.level + 1

namespace Parse

variable (text : DebugText)

/-- `parse_message` enters the messages and groups in its body. -/
def entries : Nat → Bool → Entries
  | 0, _ => Silent
  | fuel + 1, isGroup => fun p entry => entry = p ∨ (p.depth < maxProtoNesting ∧
    After (messageHeader text isGroup) (OnSome fun start =>
      During (Loop.message text fuel (parseMessage text fuel)).more
        (Loop.message text fuel (parseMessage text fuel)).pass (fun _ p entry =>
          p.atKeyword "message" = true ∧ entries fuel false p entry ∨
            p.atKeyword "group" = true ∧ entries fuel true p entry) start)
      { p with depth := p.depth + 1 } entry)

def fileEntries (fuel : Nat) : Entries := fun p =>
  During (Loop.file text fuel).more (Loop.file text fuel).pass (fun _ p entry =>
    p.atKeyword "message" = true ∧ entries text fuel false p entry) { name := p.name } p

/-- A message that is nested too deeply gives an error, and none of it is parsed. -/
def Reported (entry : Parser) : Prop :=
  ∀ fuel isGroup result after, parseMessage text fuel isGroup entry = .ok (result, after) →
    result = none ∧ after.diagnostics = entry.diagnostics ++ [.error .other
      ("`.proto` nesting exceeds maximum depth of " ++ toString maxProtoNesting) entry.peekSpan]

/-- Parsing the file never has more recursive calls under way than the bound; messages that would
need more are reported. -/
def RecursionWithin (bound : Nat) (name : String) (tokens : List Token) : Prop :=
  ∀ fuel, tokens.length < fuel →
    (∀ entry, fileEntries text fuel { name, tokens } entry →
      entry.depth + 1 ≤ bound ∧ (maxProtoNesting ≤ entry.depth → Reported text entry)) ∧
    ∀ call, fileCalls text fuel { name, tokens } call → call.depth ≤ bound

/-- The constants of the file's options nest, inside of the messages around each, at most so far. -/
def ConstantsWithin (bound : Nat) (name : String) (tokens : List Token) : Prop :=
  ∀ fuel, tokens.length < fuel →
    ∀ call, fileCalls text fuel { name, tokens } call → call.depth ≤ bound

variable {text} {fuel : Nat} {p entry : Parser}

private theorem advance_quiet {t : Option Token} {after : Parser}
    (ran : advance p = .ok (t, after)) : after.diagnostics = p.diagnostics := by
  unfold advance at ran
  split at ran <;> cases ran <;> rfl

private theorem skipped_quiet {acc acc' : Int × Bool} {after : Parser}
    (ran : Loop.skipped.pass acc p = .ok (acc', after)) : after.diagnostics = p.diagnostics := by
  dsimp only [Loop.skipped] at ran
  rw [bind_run, read_run, Outcome.ok_bind] at ran
  dsimp only at ran
  cases kind : p.peekKind with
  | none =>
    rw [kind] at ran
    obtain ⟨_, q, moved, done⟩ := bind_ok.mp ran
    cases done
    exact advance_quiet moved
  | some found =>
    rw [kind] at ran
    cases found with
    | lBrace | rBrace | _ =>
      obtain ⟨_, q, moved, done⟩ := bind_ok.mp ran
      cases done
      exact advance_quiet moved

private theorem skipBalancedBlock_quiet {after : Parser}
    (ran : skipBalancedBlock fuel p = .ok ((), after)) : after.diagnostics = p.diagnostics := by
  obtain ⟨⟨acc, q⟩, looped, done⟩ := Outcome.bind_eq_ok.mp ran
  cases done
  refine (loop_invariant looped (fun s => s.2.diagnostics = p.diagnostics) rfl ?_).1
  exact fun s s' held _ moved => (skipped_quiet moved).trans held

private theorem skip_quiet {result : Option Message} {after : Parser}
    (ran : skipMessage fuel p = .ok (result, after)) :
    result = none ∧ after.diagnostics = p.diagnostics ++ [.error .other
      ("`.proto` nesting exceeds maximum depth of " ++ toString maxProtoNesting) p.peekSpan] := by
  obtain ⟨_, q, told, ran⟩ := bind_ok.mp ran
  cases told
  obtain ⟨_, q, moved, ran⟩ := bind_ok.mp ran
  have same := advance_quiet moved
  rw [bind_run, read_run, Outcome.ok_bind] at ran
  dsimp only at ran
  rw [ite_run] at ran
  split at ran
  · obtain ⟨_, r, skipped, done⟩ := bind_ok.mp ran
    cases done
    exact ⟨rfl, (skipBalancedBlock_quiet skipped).trans same⟩
  · cases ran
    exact ⟨rfl, same⟩

theorem reported (deep : maxProtoNesting ≤ entry.depth) : Reported text entry := by
  intro fuel isGroup result after ran
  cases fuel with
  | zero => cases ran
  | succ fuel =>
    rw [parseMessage_run_eq, if_pos deep] at ran
    exact skip_quiet ran

private theorem entries_shallow (text : DebugText) (fuel : Nat) :
    ∀ (isGroup : Bool) (p entry : Parser), p.peek.isSome = true → p.left < fuel →
      p.depth ≤ maxProtoNesting → entries text fuel isGroup p entry →
        entry.depth ≤ maxProtoNesting := by
  induction fuel with
  | zero => exact fun _ _ _ _ never => absurd never (Nat.not_lt_zero _)
  | succ fuel inductionHypothesis =>
    intro isGroup p entry here enough shallow entered
    rcases entered with rfl | ⟨room, start, q, ran, inside⟩
    · exact shallow
    have header := @messageHeader_consumes text { p with depth := p.depth + 1 } (fuel + 1) isGroup
      here enough
    have enough : q.left < fuel := left_of_consumed header ran enough
    have depth : q.depth = p.depth + 1 := (header.consumes start q ran).1.2
    cases start with
    | none => exact inside.elim
    | some start =>
      obtain ⟨msg, r, visits, nested⟩ := inside
      obtain ⟨⟨⟨_, same⟩, below⟩, more⟩ :=
        Loop.visited_keeps (message_advances (parseMessage_traced text fuel)) enough visits
      have here := peek_of_before more
      have shallow : r.depth ≤ maxProtoNesting := by omega
      have enough : r.left < fuel := by omega
      rcases nested with ⟨_, nested⟩ | ⟨_, nested⟩
      · exact inductionHypothesis false r entry here enough shallow nested
      · exact inductionHypothesis true r entry here enough shallow nested

private theorem fileEntries_shallow (enough : p.left < fuel) (start : p.depth = 0)
    (entered : fileEntries text fuel p entry) : entry.depth ≤ maxProtoNesting := by
  obtain ⟨file, q, visits, _, nested⟩ := entered
  obtain ⟨⟨⟨_, same⟩, below⟩, more⟩ := Loop.visited_keeps file_advances enough visits
  have shallow : q.depth ≤ maxProtoNesting := by omega
  exact entries_shallow text fuel false q entry more (by omega) shallow nested

/-- From a run of opening brackets, a list is parsed inside of a list for each of them. -/
private theorem called_brackets {j : Nat} : ∀ {fuel level : Nat} {caller : Caller} {p : Parser},
    (∀ i, i ≤ j → (p.tokens[p.pos + i]?).map (fun t => t.kind) = some .lBracket) → j < fuel →
      ∃ call, Called caller level (innerCalls text fuel level) p call ∧ call.level = level + j ∧
        call.state.depth = p.depth := by
  induction j with
  | zero => exact fun _ _ => ⟨_, .inl rfl, rfl, rfl⟩
  | succ j inductionHypothesis =>
    intro fuel level caller p brackets enough
    obtain ⟨fuel, rfl⟩ := Nat.exists_eq_succ_of_ne_zero (Nat.ne_zero_of_lt enough)
    obtain ⟨tok, found, bracket⟩ := Option.map_eq_some_iff.mp (brackets 0 (Nat.zero_le _))
    obtain ⟨inner, innerFound, innerBracket⟩ := Option.map_eq_some_iff.mp (brackets 1 (by omega))
    have moved : advance p = .ok (some tok, { p with pos := p.pos + 1 }) := by
      have peek : p.peek = some tok := found
      rw [advance, peek]
    obtain ⟨call, made, deep, depth⟩ := @inductionHypothesis fuel (level + 1) .list
      { p with pos := p.pos + 1 } (fun i below => by
        have bracket := brackets (i + 1) (by omega)
        rwa [Nat.add_comm i 1, ← Nat.add_assoc] at bracket) (by omega)
    refine ⟨call, .inr ⟨some tok, p, ?_, ?_⟩, by omega, depth⟩
    · have peek : p.peek = some tok := found
      rw [read_run, peek]
    · dsimp only [OnSome]
      rw [bracket]
      refine ⟨some tok, _, moved, [], _, .here ?_, made⟩
      have peek : ({ p with pos := p.pos + 1 } : Parser).peek = some inner := innerFound
      dsimp only [Loop.list, Parser.before]
      rw [Parser.peekKind, peek, Option.map_some, innerBracket]
      rfl

/-- `option x = [[[…` with one bracket more than said. -/
private def brackets (n : Nat) : List Token :=
  ⟨.ident "option", {}⟩ :: ⟨.ident "x", {}⟩ :: ⟨.equals, {}⟩ :: List.replicate (n + 1) ⟨.lBracket, {}⟩

private theorem value_brackets (n : Nat) (call : ConstantCall)
    (made : valueCalls text (n + 5) { name := "a.proto", tokens := brackets n, pos := 3 } call) :
    fileCalls text (n + 5) { name := "a.proto", tokens := brackets n } call := by
  refine ⟨_, _, .here rfl, ?_⟩
  have statement : optionStmtCalls text (n + 5) { name := "a.proto", tokens := brackets n } call :=
    ⟨_, _, rfl, _, _, rfl, some "x", { name := "a.proto", tokens := brackets n, pos := 2 }, rfl, _,
      { name := "a.proto", tokens := brackets n, pos := 3 }, rfl, made⟩
  exact ⟨_, _, rfl, _, _, rfl, _, _, rfl, _, _, rfl, _, _, rfl, statement⟩

end Parse

end TptProto.Language
