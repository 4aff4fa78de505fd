import TptProto.Language.Statements

/-! The `json_name` options that the fields of a message are written with. -/

namespace TptProto.Language

open TptProto.Foundation

inductive FieldKind where
  | member
  | plain
  | mapped
  deriving DecidableEq, Repr

/-- A field's declaration as it is written. -/
structure SpelledField where
  kind : FieldKind
  name : String
  jsonName : Option String
  deriving DecidableEq, Repr

/-- What a parsing function yields here. -/
def yielded {α : Type} (item : Parse (Option α)) (p : Parser) : Option α :=
  match item p with
  | .ok (result, _) => result
  | _ => none

section Declarations

variable (text : DebugText)

/-- The bracketed options of the map field declared here. -/
def mapOptions (fuel : Nat) : Parse (Option Parse.FieldOptions) := do
  let _ ← Parse.advance
  let _ ← Parse.expect text .lt
  let some _ ← Parse.parseTypeRef fuel | return none
  let _ ← Parse.expect text .comma
  let some _ ← Parse.parseTypeRef fuel | return none
  let _ ← Parse.expect text .gt
  let some _ ← Parse.expectIdent | return none
  let _ ← Parse.expect text .equals
  let some _ ← Parse.parseNumber "expected field number" | return none
  return some (← Parse.parseFieldOptions text fuel)

def mappedAt (fuel : Nat) (p : Parser) : Option SpelledField :=
  if p.atKeyword "map" then
    (yielded (Parse.parseMap text fuel) p).map fun mf =>
      ⟨.mapped, mf.name.name, (yielded (mapOptions text fuel) p).bind fun opts => opts.jsonName⟩
  else none

/-- A field starts here: no other item of a message's body does. -/
def atField (p : Parser) : Bool :=
  !(["option", "message", "enum", "oneof", "map", "reserved", "extensions", "extend", "group"].any
    fun keyword => p.atKeyword keyword) &&
    (p.isScalarKeyword || p.peekKind = some .dot || p.identText.isSome)

def plainAt (fuel : Nat) (p : Parser) : Option SpelledField :=
  if atField p then
    (yielded (Parse.parseField text fuel) p).map fun f => ⟨.plain, f.name.name, f.jsonName⟩
  else none

/-- A oneof's field; its `json_name` is the one an ordinary field would have here. -/
def memberAt (fuel : Nat) (span : Span) (p : Parser) : Option SpelledField :=
  (yielded (Parse.parseOneofField text fuel span) p).map fun f =>
    ⟨.member, f.name.name, (yielded (Parse.parseField text fuel) p).bind fun f => f.jsonName⟩

/-- `parse_oneof` before the fields. -/
def oneofHeader (fuel : Nat) : Parse (Option Span) := do
  let span ← Parse.startSpan
  let _ ← Parse.advance
  let some _ ← Parse.expectIdent | return none
  if ← Parse.read (·.atKeyword "option") then
    let _ ← Parse.parseOptionStmt text fuel
  let _ ← Parse.expect text .lBrace
  return some span

/-- One pass over a oneof's body. -/
def oneofItem (fuel : Nat) (span : Span) (fields : List Field) : Parse (Option (List Field)) := do
  let some field ← Parse.parseOneofField text fuel span | return none
  return some (fields ++ [field])

/-- One pass over a oneof's body, until the source returns. -/
def oneofPass (fuel : Nat) (span : Span) (s : Option (List Field) × Parser) :
    Outcome Empty (Option (List Field) × Parser) :=
  (match s.1 with
    | some fields => oneofItem text fuel span fields
    | none => pure none) s.2

/-- The fields of the oneof declared here. -/
def oneofMembers (fuel : Nat) (p : Parser) : List SpelledField :=
  match oneofHeader text fuel p with
  | .ok (some span, start) =>
    (heads (fun s : Option (List Field) × Parser => s.1.isSome && s.2.before .rBrace)
      (oneofPass text fuel span) fuel (some [], start)).flatMap fun s =>
        (memberAt text fuel span s.2).toList
  | _ => []

def membersAt (fuel : Nat) (p : Parser) : List SpelledField :=
  if p.atKeyword "oneof" && (yielded (Parse.parseOneof text fuel) p).isSome then
    oneofMembers text fuel p
  else []

/-- A group's message starts with a field of its own name. -/
def groupField (isGroup : Bool) (p : Parser) : List SpelledField :=
  match Parse.messageHeader text isGroup { p with depth := p.depth + 1 } with
  | .ok (some msg, _) => msg.fields.map fun f => ⟨.plain, f.name.name, none⟩
  | _ => []

/-- The fields of the message parsed from here, in the order of its descriptor: those of its
oneofs, the ordinary ones and the map fields. -/
def spelledFields (fuel : Nat) (isGroup : Bool) (p : Parser) : List SpelledField :=
  let heads := messageHeads text (fuel + 1) isGroup p
  heads.flatMap (fun s => membersAt text fuel s.2) ++
    (groupField text isGroup p ++ heads.flatMap fun s => (plainAt text fuel s.2).toList) ++
    heads.flatMap fun s => (mappedAt text fuel s.2).toList

end Declarations

section Tree

/-- The names and kept `json_name` options of a message's oneof members. -/
def memberKeys (m : Message) : List (String × Option String) :=
  m.oneofs.flatMap fun o => o.fields.map fun f => (f.name.name, f.jsonName)

def plainKeys (m : Message) : List (String × Option String) :=
  m.fields.map fun f => (f.name.name, f.jsonName)

def mapKeys (m : Message) : List String := m.maps.map fun mf => mf.name.name

end Tree

section Passes

open Parse

variable {text : DebugText} {fuel : Nat} {p p' : Parser}

theorem yielded_of_ok {α : Type} {item : Parse (Option α)} {result : Option α}
    (run : item p = .ok (result, p')) : yielded item p = result := by
  rw [yielded, run]

theorem orRecover_yielded {α β : Type} {item : Parse (Option α)} {keep result : β} {add : α → β}
    (run : orRecover fuel item keep add p = .ok (result, p')) :
    result = ((yielded item p).map add).getD keep := by
  unfold orRecover at run
  obtain ⟨r, q, here, after⟩ := bind_ok.mp run
  rw [yielded_of_ok here]
  cases r with
  | some a =>
    cases after
    rfl
  | none =>
    obtain ⟨_, _, _, done⟩ := bind_ok.mp after
    cases done
    rfl

/-- A oneof's field has no `json_name`. -/
theorem parseOneofField_jsonName {span : Span} {f : Field}
    (run : parseOneofField text fuel span p = .ok (some f, p')) : f.jsonName = none := by
  unfold parseOneofField at run
  obtain ⟨_, _, _, run⟩ := bind_ok.mp run
  obtain ⟨ty, _, _, run⟩ := bind_ok.mp run
  cases ty with
  | none => cases run
  | some ty =>
    obtain ⟨name, _, _, run⟩ := bind_ok.mp run
    cases name with
    | none => cases run
    | some name =>
      obtain ⟨_, _, _, run⟩ := bind_ok.mp run
      obtain ⟨number, _, _, run⟩ := bind_ok.mp run
      cases number with
      | none => cases run
      | some number =>
        obtain ⟨_, _, _, run⟩ := bind_ok.mp run
        obtain ⟨_, _, _, run⟩ := bind_ok.mp run
        obtain ⟨_, _, _, done⟩ := bind_ok.mp run
        cases done
        rfl

private theorem oneofPass_appends {span : Span} {s s' : Option (List Field) × Parser}
    (continues : (s.1.isSome && s.2.before .rBrace) = true)
    (run : oneofPass text fuel span s = .ok s') (alive : s'.1.isSome = true) :
    (s'.1.getD []).map (fun f => (f.name.name, f.jsonName)) =
      (s.1.getD []).map (fun f => (f.name.name, f.jsonName)) ++
        (memberAt text fuel span s.2).toList.map fun s => (s.name, none) := by
  obtain ⟨fields, p⟩ := s
  obtain ⟨fields', p'⟩ := s'
  cases fields with
  | none => simp at continues
  | some fields =>
    obtain ⟨field, q, read, done⟩ := bind_ok.mp run
    cases field with
    | none =>
      cases done
      cases alive
    | some f =>
      cases done
      simp [memberAt, yielded_of_ok read, parseOneofField_jsonName read]

private theorem oneof_tail {span : Span} {start : Parser} {name : Ident}
    {options : List ProtoOption} {o : Oneof}
    (header : oneofHeader text fuel p = .ok (some span, start))
    (run : (do
      let some fields ← repeatSome (fun p => p.before .rBrace) (fun fields => do
          let some field ← parseOneofField text fuel span | return none
          return some (fields ++ [field])) fuel []
        | return none
      let _ ← expect text .rBrace
      return some ⟨← read fun p => p.spanFrom span, name, fields, options⟩ : Parse (Option Oneof))
        start = .ok (some o, p')) :
    o.fields.map (fun f => (f.name.name, f.jsonName)) =
      (oneofMembers text fuel p).map fun s => (s.name, none) := by
  obtain ⟨fields, final, looped, run⟩ := bind_ok.mp run
  cases fields with
  | none => cases run
  | some fields =>
    obtain ⟨_, _, _, run⟩ := bind_ok.mp run
    obtain ⟨_, _, _, done⟩ := bind_ok.mp run
    cases done
    have visits : Run (fun s : Option (List Field) × Parser => s.1.isSome && s.2.before .rBrace)
        (oneofPass text fuel span) (some [], start)
        (heads (fun s : Option (List Field) × Parser => s.1.isSome && s.2.before .rBrace)
          (oneofPass text fuel span) fuel (some [], start)) (some fields, final) := by
      refine run_heads (Eq.trans ?_ looped)
      unfold repeatSome repeatWhile
      congr 1
      funext s
      obtain ⟨current, q⟩ := s
      cases current <;> rfl
    rw [oneofMembers, header]
    have appended := visits.appended (fun s => (s.1.getD []).map fun f => (f.name.name, f.jsonName))
      (fun s => (memberAt text fuel span s.2).toList.map fun s => (s.name, none))
      (fun s => s.1.isSome = true) (fun s continues => (Bool.and_eq_true_iff.mp continues).1) rfl
      fun s _ s' continues moved alive => oneofPass_appends continues moved alive
    simpa [List.map_flatMap] using appended

/-- The fields of a parsed oneof are those its loop finds, without their `json_name`. -/
theorem parseOneof_members {o : Oneof} (run : parseOneof text fuel p = .ok (some o, p')) :
    o.fields.map (fun f => (f.name.name, f.jsonName)) =
      (oneofMembers text fuel p).map fun s => (s.name, none) := by
  unfold parseOneof at run
  obtain ⟨span, _, spanned, run⟩ := bind_ok.mp run
  obtain ⟨_, _, moved, run⟩ := bind_ok.mp run
  obtain ⟨name, q, named, run⟩ := bind_ok.mp run
  cases name with
  | none => cases run
  | some name =>
    obtain ⟨option, _, asked, run⟩ := bind_ok.mp run
    have header : ∀ start, (do
        if option then
          let _ ← parseOptionStmt text fuel
        let _ ← expect text .lBrace
        return some span : Parse (Option Span)) q = .ok (some span, start) →
        oneofHeader text fuel p = .ok (some span, start) := fun start rest =>
      bind_ok.mpr ⟨_, _, spanned, bind_ok.mpr ⟨_, _, moved, bind_ok.mpr ⟨_, _, named,
        bind_ok.mpr ⟨_, _, asked, by cases asked; exact rest⟩⟩⟩⟩
    cases asked
    cases option : q.atKeyword "option" with
    | true =>
      simp only [option, ite_true] at run header
      obtain ⟨_, _, statement, run⟩ := bind_ok.mp run
      obtain ⟨_, _, same, run'⟩ := bind_ok.mp run
      obtain ⟨_, start, opened, tail⟩ := bind_ok.mp run'
      cases same
      exact oneof_tail (header start (bind_ok.mpr ⟨_, _, statement,
        bind_ok.mpr ⟨_, _, opened, rfl⟩⟩)) tail
    | false =>
      simp only [option, Bool.false_eq_true, ite_false] at run header
      obtain ⟨_, _, same, run'⟩ := bind_ok.mp run
      obtain ⟨_, start, opened, tail⟩ := bind_ok.mp run'
      cases same
      exact oneof_tail (header start (bind_ok.mpr ⟨_, _, opened, rfl⟩)) tail

/-- What one pass over a message's body declares: the fields found here. -/
structure Declares (text : DebugText) (fuel : Nat) (p : Parser) (msg msg' : Message) : Prop where
  members : memberKeys msg' =
    memberKeys msg ++ (membersAt text fuel p).map fun s => (s.name, none)
  plain : plainKeys msg' =
    plainKeys msg ++ (plainAt text fuel p).toList.map fun s => (s.name, s.jsonName)
  mapped : mapKeys msg' = mapKeys msg ++ (mappedAt text fuel p).toList.map fun s => s.name

/-- Where no field starts, none is declared. -/
private theorem Declares.nothing {msg msg' : Message} (noOneof : p.atKeyword "oneof" = false)
    (noMap : p.atKeyword "map" = false) (noField : atField p = false)
    (oneofs : msg'.oneofs = msg.oneofs) (fields : msg'.fields = msg.fields)
    (maps : msg'.maps = msg.maps) : Declares text fuel p msg msg' where
  members := by simp [memberKeys, oneofs, membersAt, noOneof]
  plain := by simp [plainKeys, fields, plainAt, noField]
  mapped := by simp [mapKeys, maps, mappedAt, noMap]

private theorem atField_keyword {keyword : String} (here : p.atKeyword keyword = true)
    (known : keyword ∈ ["option", "message", "enum", "oneof", "map", "reserved", "extensions",
      "extend", "group"]) : atField p = false := by
  have found : ["option", "message", "enum", "oneof", "map", "reserved", "extensions", "extend",
      "group"].any (fun keyword => p.atKeyword keyword) = true :=
    List.any_eq_true.mpr ⟨keyword, known, here⟩
  rw [atField, found]
  rfl

private theorem parseReserved_fields {msg msg' : Message}
    (run : parseReserved text fuel msg p = .ok (msg', p')) :
    msg'.oneofs = msg.oneofs ∧ msg'.fields = msg.fields ∧ msg'.maps = msg.maps := by
  unfold parseReserved at run
  obtain ⟨_, _, _, run⟩ := bind_ok.mp run
  rw [bind_run, read_run, Outcome.ok_bind, ite_run] at run
  split at run
  all_goals
    obtain ⟨_, _, _, run⟩ := bind_ok.mp run
    obtain ⟨_, _, kept, run⟩ := bind_ok.mp run
    obtain ⟨_, _, _, done⟩ := bind_ok.mp run
    cases kept
    cases done
    exact ⟨rfl, rfl, rfl⟩

private theorem parseExtensions_fields {msg msg' : Message}
    (run : parseExtensions text fuel msg p = .ok (msg', p')) :
    msg'.oneofs = msg.oneofs ∧ msg'.fields = msg.fields ∧ msg'.maps = msg.maps := by
  unfold parseExtensions at run
  obtain ⟨_, _, _, run⟩ := bind_ok.mp run
  obtain ⟨_, _, _, run⟩ := bind_ok.mp run
  obtain ⟨_, _, _, done⟩ := bind_ok.mp run
  cases done
  exact ⟨rfl, rfl, rfl⟩

theorem messageItem_declares {nested : Bool → Parse (Option Message)} {msg msg' : Message}
    (run : messageItem text nested fuel msg p = .ok (msg', p')) :
    Declares text fuel p msg msg' := by
  have apart : ∀ {a}, p.atKeyword a = true → ∀ b, b ≠ a → p.atKeyword b = false := by
    intro a here b differs
    cases other : p.atKeyword b with
    | false => rfl
    | true => exact absurd (atKeyword_unique other here) differs
  have elsewhere : ∀ {keyword}, p.atKeyword keyword = true → keyword ≠ "oneof" → keyword ≠ "map" →
      keyword ∈ ["option", "message", "enum", "oneof", "map", "reserved", "extensions", "extend",
        "group"] → msg'.oneofs = msg.oneofs → msg'.fields = msg.fields → msg'.maps = msg.maps →
      Declares text fuel p msg msg' := fun here notOneof notMap known =>
    Declares.nothing (apart here "oneof" notOneof.symm) (apart here "map" notMap.symm)
      (atField_keyword here known)
  have recovered : ∀ {α : Type} {item : Parse (Option α)} {add : α → Message},
      orRecover fuel item msg add p = .ok (msg', p') → (∀ a, (add a).oneofs = msg.oneofs ∧
        (add a).fields = msg.fields ∧ (add a).maps = msg.maps) →
      msg'.oneofs = msg.oneofs ∧ msg'.fields = msg.fields ∧ msg'.maps = msg.maps := by
    intro α item add ran kept
    rcases orRecover_ok ran with rfl | ⟨a, rfl⟩
    · exact ⟨rfl, rfl, rfl⟩
    · exact kept a
  unfold messageItem at run
  rw [bind_run, read_run, Outcome.ok_bind, ite_run] at run
  by_cases here : p.atKeyword "option" = true
  · rw [if_pos here] at run
    obtain ⟨_, _, _, done⟩ := bind_ok.mp run
    cases done
    exact elsewhere here (by decide) (by decide) (by decide) rfl rfl rfl
  rw [if_neg here] at run
  have noOption := here
  clear here
  rw [bind_run, read_run, Outcome.ok_bind, ite_run] at run
  by_cases here : p.atKeyword "message" = true
  · rw [if_pos here] at run
    obtain ⟨oneofs, fields, maps⟩ := recovered run fun _ => ⟨rfl, rfl, rfl⟩
    exact elsewhere here (by decide) (by decide) (by decide) oneofs fields maps
  rw [if_neg here] at run
  have noMessage := here
  clear here
  rw [bind_run, read_run, Outcome.ok_bind, ite_run] at run
  by_cases here : p.atKeyword "enum" = true
  · rw [if_pos here] at run
    obtain ⟨oneofs, fields, maps⟩ := recovered run fun _ => ⟨rfl, rfl, rfl⟩
    exact elsewhere here (by decide) (by decide) (by decide) oneofs fields maps
  rw [if_neg here] at run
  have noEnum := here
  clear here
  rw [bind_run, read_run, Outcome.ok_bind, ite_run] at run
  by_cases here : p.atKeyword "oneof" = true
  · rw [if_pos here] at run
    have notMap := apart here "map" (by decide)
    have notField := atField_keyword here (by decide)
    rw [orRecover_yielded run]
    cases found : yielded (parseOneof text fuel) p with
    | none => exact ⟨by simp [membersAt, found], by simp [plainAt, notField], by simp [mappedAt, notMap]⟩
    | some o =>
      have declared : o.fields.map (fun f => (f.name.name, f.jsonName)) =
          (oneofMembers text fuel p).map fun s => (s.name, none) := by
        unfold yielded at found
        split at found
        · rename_i result q read
          exact parseOneof_members (found ▸ read)
        · cases found
      exact ⟨by simp [memberKeys, membersAt, here, found, declared],
        by simp [plainKeys, plainAt, notField], by simp [mapKeys, mappedAt, notMap]⟩
  rw [if_neg here] at run
  have noOneof := here
  clear here
  rw [bind_run, read_run, Outcome.ok_bind, ite_run] at run
  by_cases here : p.atKeyword "map" = true
  · rw [if_pos here] at run
    have notOneof := apart here "oneof" (by decide)
    have notField := atField_keyword here (by decide)
    rw [orRecover_yielded run]
    cases found : yielded (parseMap text fuel) p with
    | none => exact ⟨by simp [membersAt, notOneof], by simp [plainAt, notField], by simp [mappedAt, found]⟩
    | some mf =>
      exact ⟨by simp [memberKeys, membersAt, notOneof], by simp [plainKeys, plainAt, notField],
        by simp [mapKeys, mappedAt, here, found]⟩
  rw [if_neg here] at run
  have noMap := here
  clear here
  rw [bind_run, read_run, Outcome.ok_bind, ite_run] at run
  by_cases here : p.atKeyword "reserved" = true
  · rw [if_pos here] at run
    obtain ⟨oneofs, fields, maps⟩ := parseReserved_fields run
    exact elsewhere here (by decide) (by decide) (by decide) oneofs fields maps
  rw [if_neg here] at run
  have noReserved := here
  clear here
  rw [bind_run, read_run, Outcome.ok_bind, ite_run] at run
  by_cases here : p.atKeyword "extensions" = true
  · rw [if_pos here] at run
    obtain ⟨oneofs, fields, maps⟩ := parseExtensions_fields run
    exact elsewhere here (by decide) (by decide) (by decide) oneofs fields maps
  rw [if_neg here] at run
  have noExtensions := here
  clear here
  rw [bind_run, read_run, Outcome.ok_bind, ite_run] at run
  by_cases here : p.atKeyword "extend" = true
  · rw [if_pos here] at run
    obtain ⟨oneofs, fields, maps⟩ := recovered run fun _ => ⟨rfl, rfl, rfl⟩
    exact elsewhere here (by decide) (by decide) (by decide) oneofs fields maps
  rw [if_neg here] at run
  have noExtend := here
  clear here
  rw [bind_run, read_run, Outcome.ok_bind, ite_run] at run
  by_cases here : p.atKeyword "group" = true
  · rw [if_pos here] at run
    obtain ⟨oneofs, fields, maps⟩ := recovered run fun _ => ⟨rfl, rfl, rfl⟩
    exact elsewhere here (by decide) (by decide) (by decide) oneofs fields maps
  rw [if_neg here] at run
  have noGroup := here
  clear here
  rw [Bool.not_eq_true] at noOption noMessage noEnum noOneof noMap noReserved noExtensions noExtend noGroup
  have none : ["option", "message", "enum", "oneof", "map", "reserved", "extensions", "extend",
      "group"].any (fun keyword => p.atKeyword keyword) = false := by
    simp [noOption, noMessage, noEnum, noOneof, noMap, noReserved, noExtensions, noExtend, noGroup]
  rw [bind_run, read_run, Outcome.ok_bind, ite_run] at run
  split at run
  · rename_i start
    have here : atField p = true := by
      rw [atField, none]
      exact start
    rw [orRecover_yielded run]
    cases found : yielded (parseField text fuel) p with
    | none => exact ⟨by simp [membersAt, noOneof], by simp [plainAt, found], by simp [mappedAt, noMap]⟩
    | some f =>
      exact ⟨by simp [memberKeys, membersAt, noOneof], by simp [plainKeys, plainAt, here, found],
        by simp [mapKeys, mappedAt, noMap]⟩
  · rename_i start
    obtain ⟨_, _, _, run⟩ := bind_ok.mp run
    obtain ⟨_, _, _, run⟩ := bind_ok.mp run
    obtain ⟨_, _, _, done⟩ := bind_ok.mp run
    cases done
    refine Declares.nothing noOneof noMap ?_ rfl rfl rfl
    rw [atField, none]
    exact Bool.eq_false_iff.mpr start

theorem messageHeader_fields {isGroup : Bool} {msg : Message}
    (run : messageHeader text isGroup { p with depth := p.depth + 1 } = .ok (some msg, p')) :
    memberKeys msg = [] ∧ mapKeys msg = [] ∧
      plainKeys msg = (groupField text isGroup p).map fun s => (s.name, s.jsonName) := by
  rw [groupField, run]
  unfold messageHeader at run
  obtain ⟨_, _, _, run⟩ := bind_ok.mp run
  obtain ⟨_, _, _, run⟩ := bind_ok.mp run
  obtain ⟨name, _, _, run⟩ := bind_ok.mp run
  cases name with
  | none => cases run
  | some name =>
    obtain ⟨_, _, _, run⟩ := bind_ok.mp run
    obtain ⟨_, _, _, done⟩ := bind_ok.mp run
    cases done
    refine ⟨rfl, rfl, ?_⟩
    cases isGroup <;> rfl

theorem membersAt_kind {s : SpelledField} (member : s ∈ membersAt text fuel p) : s.kind = .member := by
  unfold membersAt oneofMembers at member
  split at member
  · split at member
    · obtain ⟨state, _, found⟩ := List.mem_flatMap.mp member
      obtain ⟨f, _, rfl⟩ := Option.map_eq_some_iff.mp (Option.mem_toList.mp found)
      rfl
    · cases member
  · cases member

theorem plainAt_kind {s : SpelledField} (member : s ∈ (plainAt text fuel p).toList) :
    s.kind = .plain := by
  unfold plainAt at member
  split at member
  · obtain ⟨f, _, rfl⟩ := Option.map_eq_some_iff.mp (Option.mem_toList.mp member)
    rfl
  · cases member

theorem mappedAt_kind {s : SpelledField} (member : s ∈ (mappedAt text fuel p).toList) :
    s.kind = .mapped := by
  unfold mappedAt at member
  split at member
  · obtain ⟨f, _, rfl⟩ := Option.map_eq_some_iff.mp (Option.mem_toList.mp member)
    rfl
  · cases member

theorem groupField_kind {isGroup : Bool} {s : SpelledField} (member : s ∈ groupField text isGroup p) :
    s.kind = .plain := by
  unfold groupField at member
  split at member
  · obtain ⟨f, _, rfl⟩ := List.mem_map.mp member
    rfl
  · cases member

/-- A parsed message has the fields it is written with; those of its oneofs and its map fields
have lost their `json_name`. -/
theorem parseMessage_spelled {isGroup : Bool} {m : Message}
    (run : parseMessage text (fuel + 1) isGroup p = .ok (some m, p')) :
    ∃ members plain mapped, spelledFields text fuel isGroup p = members ++ plain ++ mapped ∧
      memberKeys m = members.map (fun s => (s.name, none)) ∧
      plainKeys m = plain.map (fun s => (s.name, s.jsonName)) ∧
      mapKeys m = mapped.map (fun s => s.name) ∧ (∀ s ∈ members, s.kind = .member) ∧
      (∀ s ∈ plain, s.kind = .plain) ∧ ∀ s ∈ mapped, s.kind = .mapped := by
  obtain ⟨msg, start, final, opened, loops⟩ := parseMessage_run run
  obtain ⟨members, mapped, plain⟩ := messageHeader_fields opened
  have declares : ∀ s s' : Message × Parser,
      messageItem text (parseMessage text fuel) fuel s.1 s.2 = .ok s' →
      Declares text fuel s.2 s.1 s'.1 := fun s s' moved => messageItem_declares moved
  refine ⟨_, _, _, rfl, ?_, ?_, ?_, ?_, ?_, ?_⟩
  · have appended := loops.appended (fun s => memberKeys s.1)
      (fun s => (membersAt text fuel s.2).map fun s => (s.name, none)) (fun _ => True)
      (fun _ _ => trivial) trivial fun s _ s' _ moved _ => (declares s s' moved).members
    rw [members, List.nil_append] at appended
    rw [appended, List.map_flatMap]
  · have appended := loops.appended (fun s => plainKeys s.1)
      (fun s => (plainAt text fuel s.2).toList.map fun s => (s.name, s.jsonName)) (fun _ => True)
      (fun _ _ => trivial) trivial fun s _ s' _ moved _ => (declares s s' moved).plain
    rw [appended, plain, List.map_append, List.map_flatMap]
  · have appended := loops.appended (fun s => mapKeys s.1)
      (fun s => (mappedAt text fuel s.2).toList.map fun s => s.name) (fun _ => True)
      (fun _ _ => trivial) trivial fun s _ s' _ moved _ => (declares s s' moved).mapped
    rw [mapped, List.nil_append] at appended
    rw [appended, List.map_flatMap]
  · intro s member
    obtain ⟨_, _, found⟩ := List.mem_flatMap.mp member
    exact membersAt_kind found
  · intro s member
    rcases List.mem_append.mp member with group | field
    · exact groupField_kind group
    · obtain ⟨_, _, found⟩ := List.mem_flatMap.mp field
      exact plainAt_kind found
  · intro s member
    obtain ⟨_, _, found⟩ := List.mem_flatMap.mp member
    exact mappedAt_kind found

end Passes

end TptProto.Language
