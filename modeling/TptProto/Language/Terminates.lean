import TptProto.Language.ConstantLists

/-! Every function of the parser, up to `parse_file`: it returns if and only if it calls
`parse_constant` in no stuck place. -/

namespace TptProto.Language

open TptProto.Foundation

namespace Parse

variable {text : DebugText} {p : Parser} {fuel : Nat} {α β : Type}

private abbrev Traces (program : Parse α) (calls : Calls) (n : Nat) (p : Parser) : Prop :=
  Traced frame ConstantCall.Stuck program calls n p

section Options

theorem value_traced (enough : p.left < fuel) :
    Traces (parseConstant text fuel) (valueCalls text fuel) 0 p :=
  called (parseConstant_traced text fuel p 0 enough).1 (by simp [ConstantCall.Stuck])

theorem parseOptionStmt_consumes (here : p.peek.isSome = true) (enough : p.left < fuel) :
    Traces (parseOptionStmt text fuel) (optionStmtCalls text fuel) 1 p := by
  refine starts here fun span => first (k := 0) (advance_consumes here) enough fun _ q enough => ?_
  refine firstSome (parseOptionName_traced enough) enough rfl fun name q enough => ?_
  refine first (expect_traced text .equals) enough fun _ q enough => ?_
  refine lastSome (value_traced enough) enough rfl fun value q enough => ?_
  exact last (expect_traced text .semicolon) enough fun _ _ _ => readsOnly (.pure _)

theorem parseFieldOption_consumes (acc : FieldOptions) (here : p.peek.isSome = true)
    (enough : p.left < fuel) :
    Traces (parseFieldOption text fuel acc) (fieldOptionCalls text fuel) 1 p := by
  unfold parseFieldOption fieldOptionCalls
  refine first (k := 0) (parseOptionName_consumes here enough) enough fun name q enough => ?_
  cases name with
  | none => exact .pure acc
  | some name =>
    refine .ite (fun json => ?_) fun other => ?_
    · refine last (expect_traced text .equals) enough fun _ r _ => readsOnly ?_
      cases r.peekStr with
      | none => exact .pure acc
      | some s => exact advance_traced.andThen fun _ _ _ => .pure _
    · split
      · refine first (expect_traced text .equals) enough fun _ r enough => ?_
        refine last (value_traced enough) enough fun value r _ => ?_
        cases value <;> exact .pure _
      · refine first (expect_traced text .equals) enough fun _ r enough => ?_
        refine last (value_traced enough) enough fun value r _ => ?_
        cases value with
        | none => exact .pure acc
        | some value => exact readsOnly (.pure _)

theorem fieldOptions_advances : (Loop.fieldOptions text fuel).Advances ConstantCall.Stuck
    (fun _ => fieldOptionCalls text fuel) fuel := by
  refine Loop.advances_of_consumes fun acc p enough more => ?_
  refine last (parseFieldOption_consumes acc (peek_of_before more) enough) enough fun acc q _ => ?_
  refine readsOnly ?_
  split
  · exact advance_traced.andThen fun _ _ _ => .pure _
  · exact .pure _

theorem parseFieldOptions_traced (enough : p.left < fuel) :
    Traces (parseFieldOptions text fuel) (fieldOptionsCalls text fuel) 0 p := by
  refine reads (.ite (fun _ => ?_) fun _ => .pure _)
  refine first advance_traced enough fun _ q enough => ?_
  refine last (Loop.run_traced fieldOptions_advances enough) enough fun acc q enough => ?_
  exact last (expect_traced text .rBracket) enough fun _ _ _ => .pure _

theorem parseNumber_traced (message : String) : Traces (parseNumber message) Silent 0 p := by
  refine readsOnly ?_
  cases p.peekInt with
  | some n => exact advance_traced.andThen fun _ _ _ => .pure _
  | none => exact (errorHere_traced _ _).andThen fun _ _ _ => .pure _

/-- The number of a field, its options, and what is made of them. -/
theorem numbered_traced {message : String} {finish : Int64 → FieldOptions → Parse (Option β)}
    (enough : p.left < fuel)
    (finishes : ∀ number opts q, Traces (finish number opts) Silent 0 q) :
    Traces (do
      let _ ← expect text .equals
      let some number ← parseNumber message | return none
      let opts ← parseFieldOptions text fuel
      let _ ← expect text .semicolon
      finish number opts) (numberedCalls text fuel message) 0 p := by
  refine first (expect_traced text .equals) enough fun _ q enough => ?_
  refine firstSome (parseNumber_traced message) enough rfl fun number q enough => ?_
  refine last (parseFieldOptions_traced enough) enough fun opts q enough => ?_
  exact last (expect_traced text .semicolon) enough fun _ q _ => finishes number opts q

end Options

section Fields

private theorem parseLabel_moves (p : Parser) : ∃ label q, parseLabel p = .ok (label, q) ∧
    (q = p ∨ frame.keeps p q ∧ q.left + 1 ≤ p.left) := by
  have advances (label : Label) {keyword : String} (here : p.atKeyword keyword = true) :
      ∃ label' q, (do let _ ← advance; return label : Parse Label) p = .ok (label', q) ∧
        (q = p ∨ frame.keeps p q ∧ q.left + 1 ≤ p.left) := by
    obtain ⟨tok, found⟩ := Option.isSome_iff_exists.mp (peek_of_keyword here)
    have moved : advance p = .ok (some tok, { p with pos := p.pos + 1 }) := by rw [advance, found]
    refine ⟨label, { p with pos := p.pos + 1 }, by rw [bind_run, moved]; rfl, .inr ?_⟩
    exact (@advance_consumes ConstantCall.Stuck p (peek_of_keyword here)).consumes _ _ moved
  unfold parseLabel
  rw [bind_run, read_run, Outcome.ok_bind]
  dsimp only
  by_cases optional : p.atKeyword "optional" = true
  · rw [if_pos optional]
    exact advances .optional optional
  rw [if_neg optional, bind_run, read_run, Outcome.ok_bind]
  dsimp only
  by_cases required : p.atKeyword "required" = true
  · rw [if_pos required]
    exact advances .required required
  rw [if_neg required, bind_run, read_run, Outcome.ok_bind]
  dsimp only
  by_cases repeated : p.atKeyword "repeated" = true
  · rw [if_pos repeated]
    exact advances .repeated repeated
  · rw [if_neg repeated]
    exact ⟨.singular, p, rfl, .inl rfl⟩

/-- The label of a field is a token, or the field's type comes next. -/
private theorem afterLabel_traced {rest : Label → Parse α} {next : Label → Calls}
    (enough : p.left < fuel)
    (tail : ∀ label q, q.left < fuel → Traces (rest label) (next label) 0 q)
    (unlabelled : ∀ label, Traces (rest label) (next label) 1 p) :
    Traces (parseLabel >>= rest) (After parseLabel next) 1 p := by
  obtain ⟨label, q, ran, rfl | ⟨keeps, consumed⟩⟩ := parseLabel_moves p
  · exact .through (n := 0) ran (frame.refl q) (Nat.le_refl _) (unlabelled label)
  · exact .through ran keeps consumed (tail label q (by omega))

/-- A field from its type on. -/
private theorem typed_traced {finish : TypeRef → Ident → Int64 → FieldOptions → Parse (Option α)}
    {n : Nat} (types : Traces (parseTypeRef fuel) Silent n p) (enough : p.left < fuel)
    (finishes : ∀ ty name number opts q, Traces (finish ty name number opts) Silent 0 q) :
    Traces (do
      let some ty ← parseTypeRef fuel | return none
      let some name ← expectIdent | return none
      let _ ← expect text .equals
      let some number ← parseNumber "expected field number" | return none
      let opts ← parseFieldOptions text fuel
      let _ ← expect text .semicolon
      finish ty name number opts)
      (After (parseTypeRef fuel) (OnSome fun _ => After expectIdent (OnSome fun _ =>
        numberedCalls text fuel "expected field number"))) n p := by
  refine firstSome types enough rfl fun ty q enough => ?_
  refine firstSome expectIdent_traced enough rfl fun name q enough => ?_
  exact numbered_traced enough (finishes ty name)

theorem parseOneofField_consumes (span : Span) (here : p.peek.isSome = true)
    (enough : p.left < fuel) :
    Traces (parseOneofField text fuel span) (oneofFieldCalls text fuel) 1 p :=
  afterLabel_traced enough
    (fun _ _ enough => typed_traced (parseTypeRef_traced enough) enough fun _ _ _ _ _ =>
      readsOnly (.pure _))
    (fun _ => typed_traced (parseTypeRef_consumes here enough) enough fun _ _ _ _ _ =>
      readsOnly (.pure _))

theorem parseField_consumes (here : p.peek.isSome = true) (enough : p.left < fuel) :
    Traces (parseField text fuel) (fieldCalls text fuel) 1 p :=
  starts here fun _ => afterLabel_traced enough
    (fun _ _ enough => typed_traced (parseTypeRef_traced enough) enough fun _ _ _ _ _ =>
      readsOnly (.pure _))
    (fun _ => typed_traced (parseTypeRef_consumes here enough) enough fun _ _ _ _ _ =>
      readsOnly (.pure _))

theorem oneof_advances (span : Span) : (Loop.oneof text fuel span).Advances ConstantCall.Stuck
    (OnSome fun _ => oneofFieldCalls text fuel) fuel :=
  Loop.leaving_advances fun _ _ enough more =>
    lastSome (parseOneofField_consumes span (peek_of_before more) enough) enough rfl
      fun _ _ _ => .pure _

/-- What stands behind the options of a oneof. -/
private def oneofBody (text : DebugText) (fuel : Nat) (span : Span) (name : Ident)
    (options : List ProtoOption) : Parse (Option Oneof) := do
  let _ ← expect text .lBrace
  let some fields ← (Loop.oneof text fuel span).run fuel (some []) | return none
  let _ ← expect text .rBrace
  return some ⟨← read fun p => p.spanFrom span, name, fields, options⟩

private theorem oneofBody_traced {span : Span} {name : Ident} {options : List ProtoOption}
    (enough : p.left < fuel) :
    Traces (oneofBody text fuel span name options) (oneofBodyCalls text fuel span) 0 p := by
  refine first (expect_traced text .lBrace) enough fun _ r enough => ?_
  refine lastSome (Loop.run_traced (oneof_advances span) enough) enough rfl fun fields r enough => ?_
  exact last (expect_traced text .rBrace) enough fun _ _ _ => readsOnly (.pure _)

theorem parseOneof_consumes (here : p.peek.isSome = true) (enough : p.left < fuel) :
    Traces (parseOneof text fuel) (oneofCalls text fuel) 1 p := by
  refine starts here fun span => first (k := 0) (advance_consumes here) enough fun _ q enough => ?_
  refine firstSome expectIdent_traced enough rfl fun name q enough => ?_
  refine reads (.ite (fun option => ?_) fun _ => oneofBody_traced enough)
  have traced := (@parseOptionStmt_consumes text q fuel (peek_of_keyword option) enough).weaken
    (Nat.zero_le 1)
  exact traced.both fun o r ran => oneofBody_traced (left_of_ran traced ran enough)

theorem parseMap_consumes (here : p.peek.isSome = true) (enough : p.left < fuel) :
    Traces (parseMap text fuel) (mapCalls text fuel) 1 p := by
  refine starts here fun span => first (k := 0) (advance_consumes here) enough fun _ q enough => ?_
  refine first (expect_traced text .lt) enough fun _ q enough => ?_
  refine firstSome (parseTypeRef_traced enough) enough rfl fun key q enough => ?_
  refine first (expect_traced text .comma) enough fun _ q enough => ?_
  refine firstSome (parseTypeRef_traced enough) enough rfl fun value q enough => ?_
  refine first (expect_traced text .gt) enough fun _ q enough => ?_
  refine firstSome expectIdent_traced enough rfl fun name q enough => ?_
  exact numbered_traced enough fun _ _ _ => readsOnly (.pure _)

theorem extend_advances : (Loop.extend text fuel).Advances ConstantCall.Stuck (fun _ =>
    After (read (·.atKeyword "option")) fun here =>
      if here then optionStmtCalls text fuel else fieldCalls text fuel) fuel := by
  refine Loop.advances_of_consumes fun acc p enough more => ?_
  refine reads (.ite (fun option => ?_) fun _ => ?_)
  · exact (parseOptionStmt_consumes (peek_of_keyword option) enough).andThen fun _ _ _ => .pure _
  · refine last (parseField_consumes (peek_of_before more) enough) enough fun field q enough => ?_
    cases field with
    | some field => exact .pure _
    | none => exact last (recover_traced enough) enough fun _ _ _ => .pure acc

theorem parseExtend_consumes (here : p.peek.isSome = true) (enough : p.left < fuel) :
    Traces (parseExtend text fuel) (extendCalls text fuel) 1 p := by
  refine starts here fun span => first (k := 0) (advance_consumes here) enough fun _ q enough => ?_
  refine firstSome expectIdent_traced enough rfl fun extendee q enough => ?_
  refine first (expect_traced text .lBrace) enough fun _ q enough => ?_
  refine last (Loop.run_traced extend_advances enough) enough fun _ q enough => ?_
  exact last (expect_traced text .rBrace) enough fun _ _ _ => readsOnly (.pure _)

end Fields

section Ranges

theorem parseRangeEnd_traced : Traces parseRangeEnd Silent 0 p := by
  refine readsOnly ?_
  split
  · refine advance_traced.andThen fun _ q _ => readsOnly ?_
    split
    · exact advance_traced.andThen fun _ _ _ => .pure _
    · refine readsOnly ?_
      cases q.peekInt with
      | some n => exact advance_traced.andThen fun _ _ _ => .pure _
      | none => exact .pure none
  · exact .pure none

/-- What comes after the first number of a range. -/
private theorem afterNumber_traced (acc : List IntRange) (start : Int64) : Traces (do
    let stop ← parseRangeEnd
    if (← read Parser.peekKind) = some .comma then
      let _ ← advance
      return (acc ++ [⟨start, stop⟩], true)
    else return (acc ++ [⟨start, stop⟩], false)) Silent 0 p := by
  refine parseRangeEnd_traced.andThen fun stop q _ => readsOnly ?_
  split
  · exact advance_traced.andThen fun _ _ _ => .pure _
  · exact .pure _

private theorem peek_of_int {n : Int64} (here : p.peekInt = some n) : p.peek.isSome = true := by
  cases found : p.peek with
  | some tok => rfl
  | none =>
    rw [Parser.peekInt, Parser.peekKind, found] at here
    cases here

theorem peek_of_str (here : p.peekStr.isSome = true) : p.peek.isSome = true := by
  cases found : p.peek with
  | some tok => rfl
  | none =>
    rw [Parser.peekStr, Parser.peekKind, found] at here
    cases here

theorem ranges_advances : Loop.ranges.Advances ConstantCall.Stuck (fun _ => Silent) fuel := by
  intro acc p enough more
  cases number : p.peekInt with
  | some n =>
    have moves : Traces (parseNumber "expected integer range bound") Silent 1 p := by
      refine readsOnly ?_
      rw [number]
      exact (advance_consumes (peek_of_int number)).andThen fun _ _ _ => .pure _
    refine Loop.consumed (moves.andThen fun start q _ => ?_)
    cases start with
    | some start => exact afterNumber_traced acc.1 start
    | none => exact .pure _
  | none =>
    have ran : parseNumber "expected integer range bound" p =
        .ok (none, p.pushError .unexpectedToken "expected integer range bound" p.peekSpan) := by
      rw [parseNumber, bind_run, read_run, Outcome.ok_bind, number]
      rfl
    have ended : Loop.ranges.pass acc p = .ok ((acc.1, false),
        p.pushError .unexpectedToken "expected integer range bound" p.peekSpan) := by
      dsimp only [Loop.ranges]
      rw [parseRange, bind_run, ran]
      rfl
    exact Loop.ended (.silent ended ⟨rfl, rfl⟩ (Nat.le_refl _)) ended rfl

theorem parseRanges_traced (enough : p.left < fuel) : Traces (parseRanges fuel) Silent 0 p :=
  (Loop.run_silent ranges_advances enough).andThen fun _ _ _ => .pure _

theorem reservedNames_advances (spanOf : Parser → Span) :
    (Loop.reservedNames spanOf).Advances ConstantCall.Stuck (fun _ => Silent) fuel := by
  refine Loop.advances_of_consumes fun acc p enough more => ?_
  have here : p.peekStr.isSome = true := (Bool.and_eq_true_iff.mp more).2
  obtain ⟨s, found⟩ := Option.isSome_iff_exists.mp here
  refine readsOnly ?_
  rw [found]
  refine (advance_consumes (peek_of_str here)).andThen fun _ q _ => readsOnly (readsOnly ?_)
  split
  · exact advance_traced.andThen fun _ _ _ => .pure _
  · exact .pure _

theorem parseReservedNames_traced (spanOf : Parser → Span) (names : List Ident)
    (enough : p.left < fuel) : Traces (parseReservedNames spanOf fuel names) Silent 0 p :=
  (Loop.run_silent (reservedNames_advances spanOf) enough).andThen fun _ _ _ => .pure _

theorem parseReserved_consumes (msg : Message) (here : p.peek.isSome = true)
    (enough : p.left < fuel) : Traces (parseReserved text fuel msg) Silent 1 p := by
  refine last (k := 0) (advance_consumes here) enough fun _ q enough => readsOnly ?_
  split
  · refine last (parseReservedNames_traced _ _ enough) enough fun _ q enough => ?_
    exact last (expect_traced text .semicolon) enough fun _ _ _ => .pure _
  · refine last (parseRanges_traced enough) enough fun _ q enough => ?_
    exact last (expect_traced text .semicolon) enough fun _ _ _ => .pure _

theorem parseExtensions_consumes (msg : Message) (here : p.peek.isSome = true)
    (enough : p.left < fuel) : Traces (parseExtensions text fuel msg) Silent 1 p := by
  refine last (k := 0) (advance_consumes here) enough fun _ q enough => ?_
  refine last (parseRanges_traced enough) enough fun _ q enough => ?_
  exact last (expect_traced text .semicolon) enough fun _ _ _ => .pure _

theorem parseEnumReserved_consumes (en : Enum) (here : p.peek.isSome = true)
    (enough : p.left < fuel) : Traces (parseEnumReserved text fuel en) Silent 1 p := by
  refine last (k := 0) (advance_consumes here) enough fun _ q enough => readsOnly ?_
  split
  · refine last (parseReservedNames_traced _ _ enough) enough fun _ q enough => ?_
    exact last (expect_traced text .semicolon) enough fun _ _ _ => .pure _
  · refine last (parseRanges_traced enough) enough fun _ q enough => ?_
    exact last (expect_traced text .semicolon) enough fun _ _ _ => .pure _

end Ranges

section Bodies

/-- A token that no branch of a body takes is reported and skipped. -/
private theorem unexpected_consumes (here : p.peek.isSome = true) (a : α)
    (before after : String) : Traces (do
      let keyword := (← read Parser.identText).getD ""
      errorHere .unexpectedToken (before ++ keyword ++ after)
      let _ ← advance
      return a) Silent 1 p := by
  refine readsOnly ((errorHere_traced _ _).andThen (k := 1) fun _ q ran => ?_)
  cases ran
  refine (advance_consumes ?_).andThen fun _ _ _ => .pure a
  exact here

theorem parseEnumValue_consumes (span : Span) (here : p.peek.isSome = true)
    (enough : p.left < fuel) :
    Traces (parseEnumValue text fuel span) (After expectIdent (OnSome fun _ =>
      numberedCalls text fuel "expected enum value number")) 1 p :=
  firstSome (expectIdent_consumes here) enough rfl fun _ _ enough =>
    numbered_traced enough fun _ _ _ => .pure _

theorem enum_advances : (Loop.enum text fuel).Advances ConstantCall.Stuck
    (OnSome fun _ => enumItemCalls text fuel) fuel := by
  refine Loop.leaving_advances fun en p enough more => ?_
  have here := peek_of_before more
  unfold enumItem enumItemCalls
  refine reads (.ite (fun _ => ?_) fun _ => reads (.ite (fun _ => ?_) fun _ =>
    reads (.ite (fun _ => ?_) fun _ => ?_)))
  · refine (parseOptionStmt_consumes here enough).andThen fun option _ _ => ?_
    cases option <;> exact .pure _
  · exact (parseEnumReserved_consumes en here enough).andThen fun _ _ _ => .pure _
  · exact lastSome (parseEnumValue_consumes en.span here enough) enough rfl fun _ _ _ => .pure _
  · exact unexpected_consumes here _ _ _

theorem enumHeader_consumes (here : p.peek.isSome = true) (enough : p.left < fuel) :
    Traces (enumHeader text) Silent 1 p := by
  refine startsOnly here fun span => last (k := 0) (advance_consumes here) enough fun _ q enough => ?_
  refine lastSome expectIdent_traced enough rfl fun name q enough => ?_
  exact last (expect_traced text .lBrace) enough fun _ _ _ => .pure _

theorem parseEnum_consumes (here : p.peek.isSome = true) (enough : p.left < fuel) :
    Traces (parseEnum text fuel) (enumCalls text fuel) 1 p := by
  refine firstSome (enumHeader_consumes here enough) enough rfl fun start q enough => ?_
  refine lastSome (Loop.run_traced enum_advances enough) enough rfl fun en q enough => ?_
  exact last (expect_traced text .rBrace) enough fun _ _ _ => readsOnly (.pure _)

theorem orRecover_traced {calls : Calls} {n : Nat} {item : Parse (Option α)} {keep : β} {add : α → β}
    (traced : Traces item calls n p) (enough : p.left < fuel) :
    Traces (orRecover fuel item keep add) calls n p := by
  refine (last (k := 0) traced enough fun value q enough => ?_).weaken (Nat.le_add_left n 0)
  cases value with
  | some value => exact .pure _
  | none => exact last (recover_traced enough) enough fun _ _ _ => .pure keep

/-- What is known of `parse_message` under a budget that covers the tokens left. -/
private def Messages (text : DebugText) (fuel : Nat) : Prop :=
  ∀ (isGroup : Bool) (p : Parser), p.peek.isSome = true → p.left < fuel →
    Traces (parseMessage text fuel isGroup) (messageCalls text fuel isGroup) 1 p

theorem message_advances {nested : Bool → Parse (Option Message)} {calls : Bool → Calls}
    (inner : ∀ isGroup p, p.peek.isSome = true → p.left < fuel →
      Traces (nested isGroup) (calls isGroup) 1 p) :
    (Loop.message text fuel nested).Advances ConstantCall.Stuck
      (fun _ => messageItemCalls text calls fuel) fuel := by
  refine Loop.advances_of_consumes fun msg p enough more => ?_
  have here := peek_of_before more
  dsimp only [Loop.message]
  unfold messageItem messageItemCalls
  refine reads (.ite (fun _ => ?_) fun _ => reads (.ite (fun _ => ?_) fun _ =>
    reads (.ite (fun _ => ?_) fun _ => reads (.ite (fun _ => ?_) fun _ =>
    reads (.ite (fun _ => ?_) fun _ => reads (.ite (fun _ => ?_) fun _ =>
    reads (.ite (fun _ => ?_) fun _ => reads (.ite (fun _ => ?_) fun _ =>
    reads (.ite (fun _ => ?_) fun _ => reads (.ite (fun _ => ?_) fun _ => ?_))))))))))
  · exact (parseOptionStmt_consumes here enough).andThen fun _ _ _ => .pure _
  · exact orRecover_traced (inner false p here enough) enough
  · exact orRecover_traced (parseEnum_consumes here enough) enough
  · exact orRecover_traced (parseOneof_consumes here enough) enough
  · exact orRecover_traced (parseMap_consumes here enough) enough
  · exact parseReserved_consumes msg here enough
  · exact parseExtensions_consumes msg here enough
  · exact orRecover_traced (parseExtend_consumes here enough) enough
  · exact orRecover_traced (inner true p here enough) enough
  · exact orRecover_traced (parseField_consumes here enough) enough
  · exact unexpected_consumes here _ _ _

theorem skipped_advances : Loop.skipped.Advances ConstantCall.Stuck (fun _ => Silent) fuel := by
  refine Loop.advances_of_consumes fun acc p enough more => ?_
  have moves : Traces advance Silent 1 p := advance_consumes (Bool.and_eq_true_iff.mp more).2
  refine readsOnly ?_
  split <;> exact moves.andThen fun _ _ _ => .pure _

theorem skipBalancedBlock_traced (enough : p.left < fuel) :
    Traces (skipBalancedBlock fuel) Silent 0 p :=
  ((Loop.run_silent skipped_advances enough).andThen fun _ _ _ => .pure ()).run rfl

/-- A message that is nested too deeply is reported and skipped. -/
def skipMessage (fuel : Nat) : Parse (Option Message) := do
  errorHere .other
    ("`.proto` nesting exceeds maximum depth of " ++ toString maxProtoNesting)
  let _ ← advance
  if (← read Parser.peekKind) = some .lBrace then
    skipBalancedBlock fuel
  return none

/-- A message that is entered counts as one more level of nesting until it is left. -/
def enterMessage (text : DebugText) (fuel : Nat) (isGroup : Bool) : Parse (Option Message) := do
  modify fun p => { p with depth := p.depth + 1 }
  let result ← parseMessageInner text (parseMessage text fuel) fuel isGroup
  modify fun p => { p with depth := p.depth - 1 }
  return result

theorem parseMessage_run_eq (isGroup : Bool) (p : Parser) : parseMessage text (fuel + 1) isGroup p =
    if maxProtoNesting ≤ p.depth then skipMessage fuel p else enterMessage text fuel isGroup p := by
  unfold parseMessage
  exact ite_run _ _ _ p

theorem skipMessage_consumes (here : p.peek.isSome = true) (enough : p.left < fuel + 1) :
    Traces (skipMessage fuel) Silent 1 p := by
  refine (errorHere_traced _ _).andThen (k := 1) fun _ q ran => ?_
  cases ran
  have moves : Traces advance Silent 1 (p.pushError .other
      ("`.proto` nesting exceeds maximum depth of " ++ toString maxProtoNesting) p.peekSpan) :=
    advance_consumes here
  refine moves.andThen (k := 0) fun _ q ran => readsOnly ?_
  have enough : q.left < fuel := by
    have consumed := (moves.consumes _ q ran).2
    have same : frame.left (p.pushError .other
      ("`.proto` nesting exceeds maximum depth of " ++ toString maxProtoNesting) p.peekSpan) =
        p.left := rfl
    rw [same] at consumed
    simp only [frame] at consumed
    omega
  split
  · exact (skipBalancedBlock_traced enough).andThen fun _ _ _ => .pure none
  · exact .pure none

theorem groupNumber_traced (isGroup : Bool) : Traces (groupNumber text isGroup) Silent 0 p := by
  cases isGroup with
  | true =>
    refine (expect_traced text .equals).andThen fun _ _ _ => ?_
    exact (parseNumber_traced _).andThen fun _ _ _ => .pure _
  | false => exact .pure 0

theorem messageHeader_consumes (isGroup : Bool) (here : p.peek.isSome = true)
    (enough : p.left < fuel) : Traces (messageHeader text isGroup) Silent 1 p := by
  refine startsOnly here fun span => last (k := 0) (advance_consumes here) enough fun _ q enough => ?_
  refine lastSome expectIdent_traced enough rfl fun name q enough => ?_
  refine last (groupNumber_traced isGroup) enough fun number q enough => ?_
  exact last (expect_traced text .lBrace) enough fun _ _ _ => .pure _

theorem parseMessageInner_consumes (messages : Messages text fuel) {isGroup : Bool}
    (here : p.peek.isSome = true) (enough : p.left < fuel + 1) :
    Traces (parseMessageInner text (parseMessage text fuel) fuel isGroup)
      (After (messageHeader text isGroup) (OnSome fun start =>
        (Loop.message text fuel (parseMessage text fuel)).calls (fun _ =>
          messageItemCalls text (messageCalls text fuel) fuel) start)) 1 p := by
  have header := @messageHeader_consumes text p (fuel + 1) isGroup here enough
  refine header.bind (k := 0) fun start q ran => ?_
  have enough : q.left < fuel := by
    have consumed := (header.consumes start q ran).2
    simp only [frame] at consumed
    omega
  cases start with
  | none => exact .pure none
  | some start =>
    have body := @Loop.run_traced ConstantCall.Stuck q Message
      (Loop.message text fuel (parseMessage text fuel)) _ fuel start (message_advances messages) enough
    refine last (k := 0) (last (k := 0) body enough fun msg q enough => ?_) enough fun _ _ _ => .pure _
    exact last (expect_traced text .rBrace) enough fun _ _ _ => .pure msg

private theorem enterMessage_consumes (messages : Messages text fuel) {isGroup : Bool}
    (shallow : ¬ maxProtoNesting ≤ p.depth) (here : p.peek.isSome = true)
    (enough : p.left < fuel + 1) :
    Traces (enterMessage text fuel isGroup) (messageCalls text (fuel + 1) isGroup) 1 p := by
  have inner := @parseMessageInner_consumes text { p with depth := p.depth + 1 } fuel messages
    isGroup here enough
  have ran : enterMessage text fuel isGroup p =
      parseMessageInner text (parseMessage text fuel) fuel isGroup { p with depth := p.depth + 1 } >>=
        fun r => .ok (r.1, { r.2 with depth := r.2.depth - 1 }) := rfl
  constructor
  · rw [ran, Outcome.returns_bind_iff, inner.returns]
    unfold messageCalls
    rw [if_neg shallow]
    exact and_iff_left fun _ _ => trivial
  · intro result q done
    rw [ran] at done
    obtain ⟨⟨r, q'⟩, moved, last⟩ := Outcome.bind_eq_ok.mp done
    obtain ⟨⟨tokens, depth⟩, consumed⟩ := inner.consumes r q' moved
    cases last
    exact ⟨⟨tokens, by rw [depth]; rfl⟩, consumed⟩

theorem parseMessage_traced (text : DebugText) (fuel : Nat) : Messages text fuel := by
  induction fuel with
  | zero => exact fun _ p _ none => absurd none (Nat.not_lt_zero _)
  | succ fuel messages =>
    intro isGroup p here enough
    by_cases deep : maxProtoNesting ≤ p.depth
    · refine Traced.run ?_ ((parseMessage_run_eq isGroup p).trans (if_pos deep))
      refine (skipMessage_consumes here enough).same fun call => ?_
      unfold messageCalls
      rw [if_pos deep]
    · refine Traced.run ?_ ((parseMessage_run_eq isGroup p).trans (if_neg deep))
      exact enterMessage_consumes messages deep here enough

end Bodies

section Files

/-- A keyword may stand before the rest. -/
private theorem afterWord_traced {keyword : String} {rest : Bool → Parse α} {calls : Calls}
    (enough : p.left < fuel) (tail : ∀ here q, q.left < fuel → Traces (rest here) calls 0 q) :
    Traces (do
      let here ← read (·.atKeyword keyword)
      if here then
        let _ ← advance
      rest here) (AfterWord keyword calls) 0 p := by
  refine reads (.ite (fun _ => ?_) fun _ => tail _ p enough)
  exact first advance_traced enough fun _ q enough => tail _ q enough

theorem methodOptions_advances : (Loop.methodOptions text fuel).Advances ConstantCall.Stuck
    (fun _ => optionStmtCalls text fuel) fuel := by
  refine Loop.advances_of_consumes fun options p enough more => ?_
  refine (parseOptionStmt_consumes (peek_of_before more) enough).andThen fun option q _ => ?_
  cases option with
  | some option => exact .pure _
  | none => exact advance_traced.andThen fun _ _ _ => .pure options

theorem parseMethod_consumes (here : p.peek.isSome = true) (enough : p.left < fuel) :
    Traces (parseMethod text fuel) (methodCalls text fuel) 1 p := by
  refine starts here fun span => first (k := 0) (advance_consumes here) enough fun _ q enough => ?_
  refine firstSome expectIdent_traced enough rfl fun name q enough => ?_
  refine first (expect_traced text .lParen) enough fun _ q enough => ?_
  refine afterWord_traced enough fun clientStreaming q enough => ?_
  refine firstSome (parseTypeRef_traced enough) enough rfl fun input q enough => ?_
  refine first (expect_traced text .rParen) enough fun _ q enough => ?_
  refine reads (.ite (fun _ => (errorHere_traced _ _).andThen fun _ _ _ => .pure none) fun _ => ?_)
  refine first advance_traced enough fun _ q enough => ?_
  refine first (expect_traced text .lParen) enough fun _ q enough => ?_
  refine afterWord_traced enough fun serverStreaming q enough => ?_
  refine firstSome (parseTypeRef_traced enough) enough rfl fun output q enough => ?_
  refine first (expect_traced text .rParen) enough fun _ q enough => ?_
  refine reads (.ite (fun _ => ?_) fun _ => ?_)
  · refine first advance_traced enough fun _ q enough => ?_
    refine last (Loop.run_traced methodOptions_advances enough) enough fun options q enough => ?_
    exact last (expect_traced text .rBrace) enough fun _ _ _ => .pureBind (readsOnly (.pure _))
  · exact last (expect_traced text .semicolon) enough fun _ _ _ => .pureBind (readsOnly (.pure _))

theorem service_advances : (Loop.service text fuel).Advances ConstantCall.Stuck
    (fun _ => serviceItemCalls text fuel) fuel := by
  refine Loop.advances_of_consumes fun acc p enough more => ?_
  have here := peek_of_before more
  refine reads (.ite (fun _ => ?_) fun _ => reads (.ite (fun _ => ?_) fun _ => ?_))
  · exact (parseOptionStmt_consumes here enough).andThen fun _ _ _ => .pure _
  · exact orRecover_traced (parseMethod_consumes here enough) enough
  · exact unexpected_consumes here _ _ _

theorem parseService_consumes (here : p.peek.isSome = true) (enough : p.left < fuel) :
    Traces (parseService text fuel) (serviceCalls text fuel) 1 p := by
  refine starts here fun span => first (k := 0) (advance_consumes here) enough fun _ q enough => ?_
  refine firstSome expectIdent_traced enough rfl fun name q enough => ?_
  refine first (expect_traced text .lBrace) enough fun _ q enough => ?_
  refine last (Loop.run_traced service_advances enough) enough fun _ q enough => ?_
  exact last (expect_traced text .rBrace) enough fun _ _ _ => readsOnly (.pure _)

/-- The string that must come next, in a statement that takes nothing else. -/
theorem parseSyntax_consumes (here : p.peek.isSome = true) :
    Traces (parseSyntax text) Silent 1 p := by
  refine startsOnly here fun span => (advance_consumes here).andThen (k := 0) fun _ q _ => ?_
  refine (expect_traced text .equals).andThen fun _ q _ => readsOnly ?_
  cases q.peekStr with
  | some value =>
    refine advance_traced.andThen fun _ _ _ => ?_
    exact (expect_traced text .semicolon).andThen fun _ _ _ => readsOnly (.pure _)
  | none => exact (errorHere_traced _ _).andThen fun _ _ _ => .pure none

private theorem importPath_traced (span : Span) (kind : ImportKind) : Traces (do
    match ← read Parser.peekStr with
    | some path =>
      let _ ← advance
      let _ ← expect text .semicolon
      return some (Import.mk (← read fun p => p.spanFrom span) path kind)
    | none =>
      errorHere .unexpectedToken "import path must be a string literal"
      return none) Silent 0 p := by
  refine readsOnly ?_
  cases p.peekStr with
  | some path =>
    refine advance_traced.andThen fun _ _ _ => ?_
    exact (expect_traced text .semicolon).andThen fun _ _ _ => readsOnly (.pure _)
  | none => exact (errorHere_traced _ _).andThen fun _ _ _ => .pure none

theorem parseImport_consumes (here : p.peek.isSome = true) :
    Traces (parseImport text) Silent 1 p := by
  refine startsOnly here fun span => (advance_consumes here).andThen (k := 0) fun _ q _ => readsOnly ?_
  split
  · exact advance_traced.andThen fun _ _ _ => importPath_traced span _
  · refine readsOnly ?_
    split
    · exact advance_traced.andThen fun _ _ _ => importPath_traced span _
    · exact importPath_traced span _

theorem package_advances : Loop.package.Advances ConstantCall.Stuck (fun _ => Silent) fuel := by
  refine Loop.advances_of_consumes fun acc p _ more => ?_
  have dot : p.peekKind = some .dot := of_decide_eq_true (Bool.and_eq_true_iff.mp more).2
  refine (advance_consumes (peek_of_kind dot)).andThen fun _ _ _ => ?_
  refine expectIdent_traced.andThen fun segment _ _ => ?_
  cases segment <;> exact .pure _

theorem packageRest_traced (name : Ident) (enough : p.left < fuel) :
    Traces (packageRest fuel name) Silent 0 p :=
  (Loop.run_silent package_advances enough).andThen fun _ _ _ => .pure _

theorem file_advances : (Loop.file text fuel).Advances ConstantCall.Stuck
    (fun _ => fileItemCalls text fuel) fuel := by
  refine Loop.advances_of_consumes fun file p enough here => ?_
  dsimp only [Loop.file] at here ⊢
  unfold fileItem fileItemCalls
  refine reads (.ite (fun _ => ?_) fun _ => reads (.ite (fun _ => ?_) fun _ =>
    reads (.ite (fun _ => ?_) fun _ => reads (.ite (fun _ => ?_) fun _ =>
    reads (.ite (fun _ => ?_) fun _ => reads (.ite (fun _ => ?_) fun _ =>
    reads (.ite (fun _ => ?_) fun _ => reads (.ite (fun _ => ?_) fun _ =>
    reads (.ite (fun _ => ?_) fun _ => ?_)))))))))
  · refine (parseSyntax_consumes here).andThen fun syntaxDecl _ _ => ?_
    cases syntaxDecl <;> exact .pure _
  · refine (advance_consumes here).andThen (k := 0) fun _ q _ => ?_
    refine (expect_traced text .equals).andThen fun _ q _ => readsOnly ?_
    split
    · refine advance_traced.andThen fun _ _ _ => ?_
      exact (expect_traced text .semicolon).andThen fun _ _ _ => .pure _
    · exact (expect_traced text .semicolon).andThen fun _ _ _ => .pure _
  · refine last (k := 0) (advance_consumes here) enough fun _ q enough => ?_
    refine last expectIdent_traced enough fun name q enough => ?_
    cases name with
    | some name =>
      refine last (packageRest_traced name enough) enough fun _ q _ => ?_
      exact (expect_traced text .semicolon).andThen fun _ _ _ => .pure _
    | none => exact (expect_traced text .semicolon).andThen fun _ _ _ => .pure _
  · exact (parseImport_consumes here).andThen fun _ _ _ => .pure _
  · exact (parseOptionStmt_consumes here enough).andThen fun _ _ _ => .pure _
  · exact orRecover_traced (parseMessage_traced text fuel false p here enough) enough
  · exact orRecover_traced (parseEnum_consumes here enough) enough
  · exact orRecover_traced (parseService_consumes here enough) enough
  · exact orRecover_traced (parseExtend_consumes here enough) enough
  · exact unexpected_consumes here _ _ _

theorem parseFile_traced (enough : p.left < fuel) :
    Traces (parseFile text fuel) (fileCalls text fuel) 0 p := by
  have looped : Traces ((Loop.file text fuel).run fuel { name := p.name }) (fileCalls text fuel) 0 p :=
    Traced.same (Loop.run_traced file_advances enough) fun _ => Iff.rfl
  exact looped.run rfl

end Files

end Parse

end TptProto.Language

/-! The loops of the schema parser: which of them always get on, and when parsing a file ends. -/

namespace TptProto.Language

open TptProto.Foundation

namespace Parse

/-- The loops of the parser but for the one over the items of a list constant. -/
inductive Loop.Ordinary (text : DebugText) (fuel : Nat) : {α : Type} → Loop α → Prop where
  | file : Ordinary text fuel (.file text fuel)
  | package : Ordinary text fuel .package
  | service : Ordinary text fuel (.service text fuel)
  | methodOptions : Ordinary text fuel (.methodOptions text fuel)
  | message : Ordinary text fuel (.message text fuel (parseMessage text fuel))
  | skipped : Ordinary text fuel .skipped
  | enum : Ordinary text fuel (.enum text fuel)
  | extend : Ordinary text fuel (.extend text fuel)
  | oneof (span : Span) : Ordinary text fuel (.oneof text fuel span)
  | ranges : Ordinary text fuel .ranges
  | reservedNames (spanOf : Parser → Span) : Ordinary text fuel (.reservedNames spanOf)
  | fieldOptions : Ordinary text fuel (.fieldOptions text fuel)
  | aggregate : Ordinary text fuel (.aggregate text fuel)
  | typeName : Ordinary text fuel .typeName
  | extensionName : Ordinary text fuel .extensionName
  | dotted : Ordinary text fuel .dotted
  | recover : Ordinary text fuel .recover

/-- A pass of the loop that starts at this token consumes one, or is the last. -/
def Loop.GetsOn {α : Type} (l : Loop α) (fuel : Nat) (p : Parser) : Prop :=
  ∀ acc acc' p', p.left < fuel → l.more acc p = true → l.pass acc p = .ok (acc', p') →
    l.more acc' p' = false ∨ p.pos < p'.pos

variable {text : DebugText} {fuel : Nat} {α : Type}

private theorem pos_lt {p q : Parser} (tokens : q.tokens = p.tokens) (less : q.left < p.left) :
    p.pos < q.pos := by
  unfold Parser.left at less
  rw [tokens] at less
  omega

private theorem Loop.Advances.getsOn {l : Loop α} {passes : α → Calls}
    (advances : l.Advances ConstantCall.Stuck passes fuel) (p : Parser) : l.GetsOn fuel p := by
  intro acc acc' p' enough more ran
  obtain ⟨traced, progress⟩ := advances acc p enough more
  exact (progress acc' p' ran).imp_right (pos_lt (traced.consumes acc' p' ran).1.1)

private theorem Loop.Ordinary.getsOn {l : Loop α} (ordinary : l.Ordinary text fuel) (p : Parser) :
    l.GetsOn fuel p := by
  cases ordinary with
  | file => exact file_advances.getsOn p
  | package => exact package_advances.getsOn p
  | service => exact service_advances.getsOn p
  | methodOptions => exact methodOptions_advances.getsOn p
  | message => exact (message_advances (parseMessage_traced text fuel)).getsOn p
  | skipped => exact skipped_advances.getsOn p
  | enum => exact enum_advances.getsOn p
  | extend => exact extend_advances.getsOn p
  | oneof span => exact (oneof_advances span).getsOn p
  | ranges => exact ranges_advances.getsOn p
  | reservedNames spanOf => exact (reservedNames_advances spanOf).getsOn p
  | fieldOptions => exact fieldOptions_advances.getsOn p
  | aggregate =>
    exact (@aggregate_advances text fuel 0 (parseConstant_traced text fuel)).getsOn p
  | typeName => exact typeName_advances.getsOn p
  | extensionName => exact extensionName_advances.getsOn p
  | dotted => exact dotted_advances.getsOn p
  | recover => exact recover_advances.getsOn p

/-- With a budget above the number of tokens, every loop gets on but the one over the items of a
list; the file is parsed to its end, and this loop gets on too, exactly if it never comes to a token
that starts no constant and is no comma. -/
theorem schema_terminates_iff (text : DebugText) (name : String) (tokens : List Token) (fuel : Nat)
    (enough : tokens.length < fuel) :
    (∀ (α : Type) (l : Loop α), l.Ordinary text fuel → ∀ p, l.GetsOn fuel p) ∧
      ((parseTokens text fuel name tokens).Returns ∧
        (∀ call, fileCalls text fuel { name, tokens } call → call.caller = .list →
          ∀ fuel, (Loop.list text fuel).GetsOn fuel call.state) ↔
      ∀ call, fileCalls text fuel { name, tokens } call → call.caller = .list →
        call.state.atItem = true) := by
  have traced := @parseFile_traced text { name, tokens } fuel enough
  refine ⟨fun α l ordinary p => ordinary.getsOn p, ?_⟩
  constructor
  · rintro ⟨returns, _⟩ call made list
    exact Bool.of_not_eq_false fun free => traced.returns.mp returns call made ⟨list, free⟩
  · intro items
    refine ⟨traced.returns.mpr fun call made stuck => ?_, fun call made list fuel => ?_⟩
    · cases (items call made stuck.1).symm.trans stuck.2
    · intro acc acc' q enough more ran
      obtain ⟨⟨tokens, _⟩, consumed⟩ :=
        (@list_pass_consumes text call.state fuel (items call made list) enough acc).consumes acc' q ran
      exact .inr (pos_lt tokens consumed)

/-- Strings and floats are shown without quotes. -/
def plainText : DebugText := ⟨id, fun bits => toString bits.toNat⟩

/-- On the first line, between two columns counted from zero. -/
private def firstLine (start stop : Nat) : Span := ⟨⟨1, start + 1, start⟩, ⟨1, stop + 1, stop⟩⟩

/-- `option x = [;` -/
private def unclosed : List Token :=
  [⟨.ident "option", firstLine 0 6⟩, ⟨.ident "x", firstLine 7 8⟩, ⟨.equals, firstLine 9 10⟩,
    ⟨.lBracket, firstLine 11 12⟩, ⟨.semicolon, firstLine 12 13⟩]

private def inList : Parser := { name := "a.proto", tokens := unclosed, pos := 4 }

private theorem constant_unclosed (fuel : Nat) :
    parseConstant plainText (fuel + 1) { inList with pos := 3 } = .outOfFuel := by
  have looped : (Loop.list plainText fuel).run fuel [] inList = .outOfFuel :=
    list_halted ⟨by decide, by decide⟩ []
  have ran : parseConstant plainText (fuel + 1) { inList with pos := 3 } =
      (Loop.list plainText fuel).run fuel [] inList >>= fun r => (do
        let _ ← expect plainText .rBracket
        return some (.list r.1) : Parse (Option Constant)) r.2 := rfl
  rw [ran, looped, Outcome.outOfFuel_bind]

private theorem file_unclosed (fuel : Nat) :
    parseTokens plainText fuel "a.proto" unclosed = .outOfFuel := by
  cases fuel with
  | zero => rfl
  | succ fuel =>
    have statement : parseOptionStmt plainText (fuel + 1) { inList with pos := 0 } = .outOfFuel := by
      obtain ⟨goOn, ran⟩ : ∃ goOn, parseOptionStmt plainText (fuel + 1) { inList with pos := 0 } =
          parseConstant plainText (fuel + 1) { inList with pos := 3 } >>= goOn := ⟨_, rfl⟩
      rw [ran, constant_unclosed, Outcome.outOfFuel_bind]
    have item : fileItem plainText (fuel + 1) { name := "a.proto" } { inList with pos := 0 } =
        .outOfFuel := by
      have ran : fileItem plainText (fuel + 1) { name := "a.proto" } { inList with pos := 0 } =
          parseOptionStmt plainText (fuel + 1) { inList with pos := 0 } >>= fun r =>
            .ok ({ name := "a.proto", options := pushTo [] r.1 }, r.2) := rfl
      rw [ran, statement, Outcome.outOfFuel_bind]
    have ran : parseTokens plainText (fuel + 1) "a.proto" unclosed =
        fileItem plainText (fuel + 1) { name := "a.proto" } { inList with pos := 0 } >>=
          fun r => loop (fun s : File × Parser => s.2.peek.isSome)
            (fun s => fileItem plainText (fuel + 1) s.1 s.2) fuel r := rfl
    rw [ran, item, Outcome.outOfFuel_bind]

/-- A list constant with a `;` in it is parsed for ever. -/
theorem not_schema_terminates_unclosed :
    ¬ ∃ fuel, (parseTokens plainText fuel "a.proto" unclosed).Returns := by
  rintro ⟨fuel, returns⟩
  rw [file_unclosed] at returns
  exact returns

/-- `syntax = "proto3";` -/
def syntaxOnly : List Token :=
  [⟨.ident "syntax", firstLine 0 6⟩, ⟨.equals, firstLine 7 8⟩, ⟨.str "proto3", firstLine 9 17⟩,
    ⟨.semicolon, firstLine 17 18⟩]

theorem syntaxOnly_calls (fuel : Nat) (call : ConstantCall) :
    ¬ fileCalls plainText fuel { name := "a.proto", tokens := syntaxOnly } call := by
  rintro ⟨file, p, visits, made⟩
  cases visits with
  | here _ =>
    obtain ⟨_, _, ran, made⟩ := made
    cases ran
    exact made
  | step _ moved rest =>
    cases moved
    cases rest with
    | here continues => cases continues
    | step continues _ _ => cases continues

theorem schema_terminates_syntaxOnly :
    (parseTokens plainText 5 "a.proto" syntaxOnly).Returns :=
  ((schema_terminates_iff plainText "a.proto" syntaxOnly 5 (by decide)).2.mpr
    fun call made _ => (syntaxOnly_calls 5 call made).elim).1

end Parse

end TptProto.Language
