import TptProto.Conformance.Protocol
import TptProto.Json.Parse
import TptProto.Reflect.RoundTrip

/-! The conformance testee: what it answers to a request, and its loop over the input. -/

namespace TptProto.Conformance

open TptProto.Foundation TptProto.Core TptProto.Descriptor TptProto.Reflect TptProto.Json

section Numbers

def reqTestCategory : Int32 := 1
def reqMessageType : Int32 := 2
def reqProtobufPayload : Int32 := 3
def reqJsonPayload : Int32 := 4
def reqRequestedFormat : Int32 := 5
def reqTextPayload : Int32 := 7
def reqJspbPayload : Int32 := 8

def resParseError : Int32 := 1
def resSerializeError : Int32 := 2
def resRuntimeError : Int32 := 3
def resProtobufPayload : Int32 := 4
def resJsonPayload : Int32 := 5
def resSkipped : Int32 := 6

def fmtUnspecified : Int32 := 0
def fmtProtobuf : Int32 := 1
def fmtJson : Int32 := 2

def catJsonIgnoreUnknown : Int32 := 3

end Numbers

/-- The compiled schemas. The hash map is its entries. -/
structure Registry where
  pool : DescriptorPool
  requestDesc : DescriptorProto
  responseDesc : DescriptorProto
  messages : List (String × DescriptorProto)

/-- The names that the reference runner uses, and any other as it is. -/
def aliased (norm : String) : String :=
  if norm = "protobuf_test_messages.proto2.TestAllTypesProto2" then "proto2.TestAllTypes"
  else if norm = "protobuf_test_messages.proto3.TestAllTypesProto3" then "proto3.TestAllTypes"
  else if norm = "protobuf_test_messages.editions.TestAllTypesEdition2023" then
    "editions.TestAllTypes"
  else if norm = "protobuf_test_messages.editions.TestAllTypesEdition2024" then
    "editions.TestAllTypes"
  else norm

/-- By the full name, else by what follows its last dot. -/
def Registry.lookup (registry : Registry) (name : String) : Option DescriptorProto :=
  let name := aliased (String.ofList (name.toList.dropWhile (· = '.')))
  let short := String.ofList (name.toList.reverse.takeWhile (· ≠ '.')).reverse
  (SortedMap.get? registry.messages name).or (SortedMap.get? registry.messages short)

def strValue (s : String) : Value := .scalar (.string s)

def bytesValue (b : List UInt8) : Value := .scalar (.bytes b)

def boolValue (b : Bool) : Value := .scalar (.bool b)

def getStr (m : DynamicMessage) (f : Int32) : Option String :=
  match m.getField f with
  | some (.scalar (.string s)) => some s
  | _ => none

def getBytes (m : DynamicMessage) (f : Int32) : Option (List UInt8) :=
  match m.getField f with
  | some (.scalar (.bytes b)) => some b
  | _ => none

def getEnum (m : DynamicMessage) (f : Int32) : Option Int32 :=
  match m.getField f with
  | some (.enum n) => some n
  | _ => none

/-- `serde_json::from_str` and `to_string`, with the text of an error. -/
structure JsonText where
  parse : String → Except String Json
  print : Json → Except String String

def jsonErrorText : JsonError → String
  | .unknownField name => s!"unknown field `{name}`"
  | .typeMismatch field text => s!"type mismatch for field `{field}`: {text}"
  | .invalidNumber field text => s!"invalid number for field `{field}`: {text}"
  | .unknownEnum name field => s!"unknown enum value `{name}` for field `{field}`"
  | .wellKnown text => s!"well-known type error: {text}"
  | .unresolvedType name => s!"unresolved type `{name}`"
  | .recursionLimit text => s!"recursion limit: {text}"

section Testee

variable (libs : Libraries) (serde : JsonText) (registry : Registry)

def jsonStringToMessage (desc : DescriptorProto) (json : String) (opts : JsonOptions) :
    JsonResult DynamicMessage :=
  match serde.parse json with
  | .ok v => jsonToMessage libs registry.pool opts desc v
  | .error e => .err (.wellKnown e)

def messageToJsonString (desc : DescriptorProto) (msg : DynamicMessage) (opts : JsonOptions) :
    JsonResult String := do
  let v ← messageToJson libs registry.pool opts desc msg
  match serde.print v with
  | .ok text => .ok text
  | .error e => .err (.wellKnown e)

/-- A result, or the response that an error is turned into. -/
def handled {ε α : Type} (result : Outcome ε α) (failed : ε → DynamicMessage)
    (next : α → Outcome IoError DynamicMessage) : Outcome IoError DynamicMessage :=
  match result with
  | .ok value => next value
  | .err error => .ok (failed error)
  | .panic => .panic
  | .outOfFuel => .outOfFuel

/-- A response with one field set. -/
def respondWith (number : Int32) (value : Value) : DynamicMessage :=
  (DynMsg.new registry.responseDesc registry.pool).setField number value

/-- The part of `process` behind the parse. -/
def serialize (desc : DescriptorProto) (requested : Int32) (msg : DynamicMessage) :
    Outcome IoError DynamicMessage :=
  if requested = fmtProtobuf then
    handled msg.encode
      (fun e => respondWith registry resSerializeError
        (strValue s!"failed to serialize binary: {reflectErrorText e}"))
      fun b => .ok (respondWith registry resProtobufPayload (bytesValue b))
  else if requested = fmtJson then
    handled (messageToJsonString libs serde registry desc msg {})
      (fun e => respondWith registry resSerializeError
        (strValue s!"failed to serialize JSON: {jsonErrorText e}"))
      fun s => .ok (respondWith registry resJsonPayload (strValue s))
  else .ok (respondWith registry resSkipped (boolValue true))

def process (request : DynamicMessage) : Outcome IoError DynamicMessage :=
  let messageType := (getStr request reqMessageType).getD ""
  let requested := (getEnum request reqRequestedFormat).getD fmtUnspecified
  let category := (getEnum request reqTestCategory).getD 0
  if (request.getField reqTextPayload).isSome || (request.getField reqJspbPayload).isSome then
    .ok (respondWith registry resSkipped (boolValue true))
  else
    match registry.lookup messageType with
    | none => .ok (respondWith registry resSkipped (boolValue true))
    | some desc =>
      match getBytes request reqProtobufPayload with
      | some bytes =>
        handled (DynMsg.decode registry.pool desc (.new (.ofBytes bytes)))
          (fun e => respondWith registry resParseError
            (strValue s!"failed to parse binary: {reflectErrorText e}"))
          (serialize libs serde registry desc requested)
      | none =>
        match getStr request reqJsonPayload with
        | some json =>
          handled (jsonStringToMessage libs serde registry desc json
              { ignoreUnknownFields := category = catJsonIgnoreUnknown })
            (fun e => respondWith registry resParseError
              (strValue s!"failed to parse JSON: {jsonErrorText e}"))
            (serialize libs serde registry desc requested)
        | none =>
          .ok (respondWith registry resRuntimeError (strValue "request contained no payload"))

/-- What the loop makes of one frame. -/
def respond (frame : List UInt8) : Outcome IoError DynamicMessage :=
  handled (DynMsg.decode registry.pool registry.requestDesc (.new (.ofBytes frame)))
    (fun e => respondWith registry resRuntimeError
      (strValue s!"failed to parse ConformanceRequest: {reflectErrorText e}"))
    (process libs serde registry)

def answer (frame : List UInt8) : Outcome IoError (List UInt8) := do
  let response ← respond libs serde registry frame
  response.encode.mapErr fun e => .other (reflectErrorText e)

def runTesteeLoop (reader : ByteSource) : Logged IoError UInt8 Unit :=
  answerFrames (answer libs serde registry) (reader.bytes.length + 1) reader

/-- The results that a testee gives, each with the type of its field. -/
def resultTypes : List (Int32 × FieldType) :=
  [(resParseError, .string), (resSerializeError, .string), (resRuntimeError, .string),
    (resProtobufPayload, .bytes), (resJsonPayload, .string), (resSkipped, .bool)]

/-- The results are singular fields of the response, each of its type. -/
def ResponseSchema : Prop :=
  ∀ result ∈ resultTypes, ∃ field, registry.responseDesc.findFieldByNumber result.1 = some field ∧
    field.label ≠ some .repeated ∧ field.type.getD .string = result.2

/-- A response with one of the results, of its type. -/
inductive Responds : DynamicMessage → Prop where
  | one {number : Int32} {type : FieldType} {s : ScalarValue} {word : UnknownValue}
      (known : (number, type) ∈ resultTypes) (carries : Carries type s word) :
      Responds (respondWith registry number (.scalar s))

end Testee

section Responses

variable {libs : Libraries} {serde : JsonText} {registry : Registry} {response : DynamicMessage}

theorem respondWith_fields (number : Int32) (value : Value) :
    (respondWith registry number value).fields = [(number, value)] := by
  have nothing (numbers : List Int32) :
      DynMsg.removeAll ([] : List (Int32 × Value)) numbers = [] := by
    induction numbers with
    | nil => rfl
    | cons number rest ih => exact ih
  unfold respondWith DynMsg.setField
  split
  · simp only [DynMsg.new, nothing]
    rfl
  · rfl

private theorem responds_text {number : Int32} (known : (number, FieldType.string) ∈ resultTypes)
    (text : String) : Responds registry (respondWith registry number (strValue text)) :=
  .one known (.string text)

private theorem responds_skipped :
    Responds registry (respondWith registry resSkipped (boolValue true)) :=
  .one (by decide) (.bool true)

theorem handled_eq_ok {ε α : Type} {result : Outcome ε α} {failed : ε → DynamicMessage}
    {next : α → Outcome IoError DynamicMessage}
    (done : handled result failed next = .ok response) :
    (∃ value, result = .ok value ∧ next value = .ok response) ∨
      ∃ error, result = .err error ∧ failed error = response := by
  cases result with
  | ok value => exact .inl ⟨value, rfl, done⟩
  | err error => exact .inr ⟨error, rfl, Outcome.ok.inj done⟩
  | panic | outOfFuel => cases done

theorem serialize_responds {desc : DescriptorProto} {requested : Int32} {msg : DynamicMessage}
    (done : serialize libs serde registry desc requested msg = .ok response) :
    Responds registry response := by
  unfold serialize at done
  split at done
  · rcases handled_eq_ok done with ⟨b, _, written⟩ | ⟨error, _, rfl⟩
    · obtain rfl := Outcome.ok.inj written
      exact .one (by decide) (.bytes b)
    · exact responds_text (by decide) _
  · split at done
    · rcases handled_eq_ok done with ⟨text, _, written⟩ | ⟨error, _, rfl⟩
      · obtain rfl := Outcome.ok.inj written
        exact responds_text (by decide) text
      · exact responds_text (by decide) _
    · obtain rfl := Outcome.ok.inj done
      exact responds_skipped

theorem process_responds {request : DynamicMessage}
    (done : process libs serde registry request = .ok response) : Responds registry response := by
  unfold process at done
  simp only at done
  split at done
  · obtain rfl := Outcome.ok.inj done
    exact responds_skipped
  · split at done
    · obtain rfl := Outcome.ok.inj done
      exact responds_skipped
    · split at done
      · rcases handled_eq_ok done with ⟨msg, _, written⟩ | ⟨error, _, rfl⟩
        · exact serialize_responds written
        · exact responds_text (by decide) _
      · split at done
        · rcases handled_eq_ok done with ⟨msg, _, written⟩ | ⟨error, _, rfl⟩
          · exact serialize_responds written
          · exact responds_text (by decide) _
        · obtain rfl := Outcome.ok.inj done
          exact responds_text (by decide) _

theorem respond_responds {frame : List UInt8}
    (done : respond libs serde registry frame = .ok response) : Responds registry response := by
  rcases handled_eq_ok done with ⟨request, _, processed⟩ | ⟨error, _, rfl⟩
  · exact process_responds processed
  · exact responds_text (by decide) _

theorem Responds.conforms (schema : ResponseSchema registry) (responds : Responds registry response) :
    Conforms registry.pool 1 response := by
  obtain @⟨number, type, s, word, known, carries⟩ := responds
  obtain ⟨field, found, singular, typed⟩ := schema _ known
  have numbered : ∀ result ∈ resultTypes, result.1.toUInt32 ≠ 0 ∧ result.1.toUInt32.toNat < 2 ^ 29 := by
    decide
  have fields := @respondWith_fields registry number (.scalar s)
  refine ⟨rfl, ?_, ?_, List.Pairwise.nil, fun _ member => absurd member (List.not_mem_nil), rfl⟩
  · rw [fields]
    exact List.pairwise_singleton _ _
  · rw [fields]
    intro entry member
    obtain rfl := List.mem_singleton.mp member
    refine ⟨⟨(numbered _ known).1, (numbered _ known).2⟩, field, found, .single singular ?_⟩
    rw [show type = field.type.getD .string from typed.symm] at carries
    exact .scalar carries

/-- A request of a conforming message in binary, to be answered in binary. -/
structure AsksBinary (registry : Registry) (request msg : DynamicMessage) (bytes : List UInt8) :
    Prop where
  noText : request.getField reqTextPayload = none
  noJspb : request.getField reqJspbPayload = none
  found : registry.lookup ((getStr request reqMessageType).getD "") = some msg.descriptor
  payload : getBytes request reqProtobufPayload = some bytes
  format : getEnum request reqRequestedFormat = some fmtProtobuf
  encoded : msg.encode = .ok bytes
  within : WithinLimits registry.pool .default 0 msg.descriptor bytes

theorem process_binary {request msg : DynamicMessage} {bytes : List UInt8} {nesting : Nat}
    (asks : AsksBinary registry request msg bytes) (conforms : Conforms registry.pool nesting msg) :
    process libs serde registry request =
      .ok (respondWith registry resProtobufPayload (bytesValue bytes)) := by
  have decoded := conforms.decode_new asks.encoded asks.within
  unfold process
  simp only [asks.noText, asks.noJspb, Option.isSome_none, Bool.or_self, Bool.false_eq_true, if_false,
    asks.found, asks.payload, asks.format, Option.getD_some, decoded, handled]
  rw [serialize, if_pos rfl, asks.encoded, handled]

theorem respond_binary {request msg : DynamicMessage} {bytes frame : List UInt8}
    {nesting nesting' : Nat} (requested : Conforms registry.pool nesting request)
    (ofSchema : request.descriptor = registry.requestDesc) (sent : request.encode = .ok frame)
    (within : WithinLimits registry.pool .default 0 registry.requestDesc frame)
    (asks : AsksBinary registry request msg bytes) (conforms : Conforms registry.pool nesting' msg) :
    respond libs serde registry frame =
      .ok (respondWith registry resProtobufPayload (bytesValue bytes)) := by
  have decoded := requested.decode_new sent (by rwa [ofSchema])
  rw [ofSchema] at decoded
  rw [respond, decoded, handled, process_binary asks conforms]

def singular (number : Int32) (type : FieldType) : FieldDescriptorProto :=
  { number := some number, label := some .optional, type := some type }

/-- A type with a number in it. -/
def pingType : DescriptorProto := { field := [singular 1 .int32] }

/-- A testee for one type, under the name `Ping`. -/
def pingRegistry : Registry where
  pool := { messages := [], enums := [], extensions := [], syntaxName := "proto3" }
  requestDesc := { field := [singular reqMessageType .string, singular reqProtobufPayload .bytes,
    singular reqRequestedFormat .enum] }
  responseDesc := { field := resultTypes.map fun result => singular result.1 result.2 }
  messages := [("Ping", pingType)]

def ping : DynamicMessage :=
  { DynMsg.new pingType pingRegistry.pool with fields := [(1, .scalar (.i64 (Int32.toInt64 5)))] }

def pingRequest : DynamicMessage :=
  { DynMsg.new pingRegistry.requestDesc pingRegistry.pool with
    fields := [(reqMessageType, strValue "Ping"), (reqProtobufPayload, bytesValue [8, 5]),
      (reqRequestedFormat, .enum fmtProtobuf)] }

theorem pingRegistry_schema : ResponseSchema pingRegistry := by
  simp only [ResponseSchema, resultTypes, List.forall_mem_cons]
  refine ⟨⟨_, rfl, ?_, rfl⟩, ⟨_, rfl, ?_, rfl⟩, ⟨_, rfl, ?_, rfl⟩, ⟨_, rfl, ?_, rfl⟩,
    ⟨_, rfl, ?_, rfl⟩, ⟨_, rfl, ?_, rfl⟩, by simp⟩ <;> decide

theorem ping_conforms : Conforms pingRegistry.pool 1 ping := by
  refine ⟨rfl, by decide, ?_, List.Pairwise.nil, by simp [ping, DynMsg.new], rfl⟩
  intro entry member
  obtain rfl := List.mem_singleton.mp member
  exact ⟨⟨by decide, by decide⟩, _, rfl, .single (by decide) (.scalar (.int32 5))⟩

theorem pingRequest_conforms : Conforms pingRegistry.pool 1 pingRequest := by
  refine ⟨rfl, by decide, ?_, List.Pairwise.nil, by simp [pingRequest, DynMsg.new], rfl⟩
  simp only [pingRequest, List.forall_mem_cons]
  refine ⟨⟨⟨by decide, by decide⟩, _, rfl, .single (by decide) (.scalar (.string "Ping"))⟩,
    ⟨⟨by decide, by decide⟩, _, rfl, .single (by decide) (.scalar (.bytes [8, 5]))⟩,
    ⟨⟨by decide, by decide⟩, _, rfl, .single (by decide) (.enum rfl fmtProtobuf)⟩, by simp⟩

/-- The items of `pingRequest`. -/
def pingItems : List Item :=
  [⟨⟨2, .lengthDelimited, by decide⟩, .lengthDelimited (asBytes "Ping")⟩,
    ⟨⟨3, .lengthDelimited, by decide⟩, .lengthDelimited [8, 5]⟩, ⟨⟨5, .varint, by decide⟩, .varint 1⟩]

def pingFrame : List UInt8 := pingItems.flatMap Item.written

theorem pingRequest_encode : pingRequest.encode = .ok pingFrame := by decide

theorem pingFrame_within : WithinLimits pingRegistry.pool .default 0 pingRegistry.requestDesc pingFrame := by
  refine .flat ?_ (by decide) (by decide) (by decide) ?_ (by decide)
  · simp only [pingItems, List.forall_mem_cons]
    refine ⟨⟨by decide, by decide, ?_⟩, ⟨by decide, by decide, ?_⟩, ⟨by decide, by decide, trivial⟩, by simp⟩
    · change (asBytes "Ping").length < 2 ^ 64
      decide
    · change List.length _ < 2 ^ 64
      decide
  · simp only [pingItems, List.forall_mem_cons]
    refine ⟨?_, ?_, trivial, by simp⟩
    · change DecoderLimits.within (some _) (asBytes "Ping").length = true
      decide
    · change DecoderLimits.within (some _) _ = true
      decide

theorem ping_asks : AsksBinary pingRegistry pingRequest ping [8, 5] where
  noText := rfl
  noJspb := rfl
  found := by decide
  payload := rfl
  format := rfl
  encoded := by decide
  within := by
    have written : ([8, 5] : List UInt8) =
        [(⟨⟨1, .varint, by decide⟩, .varint 5⟩ : Item)].flatMap Item.written := by decide
    rw [written]
    refine .flat ?_ (by decide) (by decide) (by decide) ?_ (by decide)
    · simp only [List.forall_mem_cons]
      exact ⟨⟨by decide, by decide, trivial⟩, by simp⟩
    · simp only [List.forall_mem_cons]
      exact ⟨trivial, by simp⟩

theorem respond_ping : respond sampleLibraries ⟨fun _ => .error "", fun _ => .error ""⟩ pingRegistry
    pingFrame = .ok (respondWith pingRegistry resProtobufPayload (bytesValue [8, 5])) :=
  respond_binary pingRequest_conforms rfl pingRequest_encode pingFrame_within ping_asks ping_conforms

end Responses

section Sessions

variable (libs : Libraries) (serde : JsonText) (registry : Registry)

end Sessions

end TptProto.Conformance
