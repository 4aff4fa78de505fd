import TptProto.Json.Scalar

/-! The JSON forms of the well-known types. `recurse` converts a nested message at a depth. -/

namespace TptProto.Json

open TptProto.Foundation TptProto.Core TptProto.Descriptor TptProto.Reflect

/-- What is left of a text behind a prefix. -/
def stripPrefix (head text : String) : Option String :=
  (head.toList.isPrefixOf? text.toList).map String.ofList

def wktName (pool : DescriptorPool) (desc : DescriptorProto) : Option String := do
  let fqn ← pool.fullNameByValue desc
  stripPrefix "google.protobuf." (String.ofList (fqn.toList.dropWhile (· = '.')))

/-- The special forms. -/
inductive WellKnown where
  | timestamp
  | duration
  | fieldMask
  | struct
  | value
  | listValue
  | any
  | empty
  | wrapper
  deriving DecidableEq, Repr

def isWrapper (name : String) : Bool :=
  ["DoubleValue", "FloatValue", "Int64Value", "Uint64Value", "Int32Value", "Uint32Value",
    "BoolValue", "StringValue", "BytesValue"].contains name

/-- The form that the dispatch chooses for a name. -/
def WellKnown.ofName (name : String) : Option WellKnown :=
  if name = "Timestamp" then some .timestamp
  else if name = "Duration" then some .duration
  else if name = "FieldMask" then some .fieldMask
  else if name = "Struct" then some .struct
  else if name = "Value" then some .value
  else if name = "ListValue" then some .listValue
  else if name = "Any" then some .any
  else if name = "Empty" then some .empty
  else if isWrapper name then some .wrapper
  else none

/-- The form of a descriptor, if it is special. -/
def wellKnown? (pool : DescriptorPool) (desc : DescriptorProto) : Option WellKnown :=
  (wktName pool desc).bind WellKnown.ofName

section Access

variable (msg : DynamicMessage) (n : Int32)

def getI64 : Option Int64 :=
  match msg.getField n with
  | some (.scalar (.i64 x)) => some x
  | some (.scalar (.u64 x)) => some x.toInt64
  | _ => none

def getF64 : Option UInt64 :=
  match msg.getField n with
  | some (.scalar (.f64 x)) => some x
  | _ => none

def getStr : Option String :=
  match msg.getField n with
  | some (.scalar (.string s)) => some s
  | _ => none

def getBool : Option Bool :=
  match msg.getField n with
  | some (.scalar (.bool b)) => some b
  | _ => none

def getMsg : Option DynamicMessage :=
  match msg.getField n with
  | some (.message m) => some m
  | _ => none

end Access

/-- The declared type of a field. -/
def fieldType (desc : DescriptorProto) (n : Int32) : Option FieldType :=
  (desc.findFieldByNumber n).bind fun f => f.type

/-- The pool of messages that need none. -/
def noPool : DescriptorPool := ⟨[], [], [], ""⟩

section Times

/-- Decimal digits of a number, filled with zeros behind the sign. -/
def zeroPadded (width : Nat) (n : Int) : String :=
  let sign := if n < 0 then "-" else ""
  let digits := toString n.natAbs
  sign ++ String.ofList (List.replicate (width - (sign.length + digits.length)) '0') ++ digits

def trimZeros (text : String) : String :=
  String.ofList (text.toList.reverse.dropWhile (· = '0')).reverse

def formatTimestamp (base : String) (nanos : Int32) : String :=
  if nanos = 0 then s!"{base}Z" else s!"{base}.{trimZeros (zeroPadded 9 nanos.toInt)}Z"

def timestampToJson (libs : Libraries) (msg : DynamicMessage) : JsonResult Json := do
  let secs := (getI64 msg 1).getD 0
  let nanos := ((getI64 msg 2).getD 0).toInt32
  let base ← Outcome.ofOption (.wellKnown "invalid timestamp") (libs.calendar secs)
  .ok (.string (formatTimestamp base nanos))

/-- A message of seconds and nanoseconds. -/
def secondsAndNanos (desc : DescriptorProto) (secs nanos : Int64) : DynamicMessage :=
  ((DynMsg.new desc noPool).setField 1 (.scalar (.i64 secs))).setField 2 (.scalar (.i64 nanos))

def timestampFromJson (libs : Libraries) (desc : DescriptorProto) (json : Json) :
    JsonResult DynamicMessage :=
  match json with
  | .string s =>
    match libs.parseRfc3339 s with
    | .ok (secs, nanos) => .ok (secondsAndNanos desc secs nanos.toInt32.toInt64)
    | .error e => .err (.wellKnown s!"invalid RFC3339: {e}")
  | _ => .err (.typeMismatch "Timestamp" "expected string")

def formatDuration (secs : Int64) (nanos : Int32) : String :=
  let sign := if secs < 0 ∨ secs = 0 ∧ nanos < 0 then "-" else ""
  let fraction :=
    if nanos = 0 then "" else s!".{trimZeros (zeroPadded 9 nanos.toInt.natAbs)}"
  s!"{sign}{secs.toInt.natAbs}{fraction}s"

def durationToJson (msg : DynamicMessage) : Json :=
  .string (formatDuration ((getI64 msg 1).getD 0) ((getI64 msg 2).getD 0).toInt32)

/-- At most nine characters, filled up to nine with zeros. -/
def nineDigits (text : List Char) : String :=
  let taken := text.take 9
  String.ofList (taken ++ List.replicate (9 - taken.length) '0')

/-- The text before and behind the first point. -/
def splitPoint (text : List Char) : List Char × Option (List Char) :=
  match text.span (· ≠ '.') with
  | (before, []) => (before, none)
  | (before, _ :: behind) => (before, some behind)

def durationNanos : Option (List Char) → JsonResult Int
  | some text =>
    Outcome.ofOption (.wellKnown "invalid duration nanos")
      (Decimal.parseInt (2 ^ 31) (nineDigits text))
  | none => .ok 0

def durationFromJson (desc : DescriptorProto) (json : Json) : JsonResult DynamicMessage :=
  match json with
  | .string s => do
    let trimmed ← Outcome.ofOption (.wellKnown "duration missing 's'")
      (['s'].isSuffixOf? s.toList)
    let (sign, body) : Int64 × List Char :=
      match trimmed with
      | '-' :: body => (-1, body)
      | body => (1, body)
    let (secsText, nanosText) := splitPoint body
    let secs ← Outcome.ofOption (.wellKnown "invalid duration seconds")
      (Decimal.parseInt (2 ^ 63) (String.ofList secsText))
    let nanos ← durationNanos nanosText
    .ok (secondsAndNanos desc (sign * Int64.ofInt secs) (sign * Int64.ofInt nanos))
  | _ => .err (.typeMismatch "Duration" "expected string")

end Times

section FieldMask

/-- The texts of a list, the rest of which is passed over. -/
def textsOf : List Value → List String
  | [] => []
  | .scalar (.string s) :: rest => s :: textsOf rest
  | _ :: rest => textsOf rest

def joinComma : List String → List Char
  | [] => []
  | [path] => path.toList
  | path :: rest => path.toList ++ ',' :: joinComma rest

def fieldMaskToJson (msg : DynamicMessage) : Json :=
  match msg.getField 1 with
  | some (.list items) => .string (String.ofList (joinComma (textsOf items)))
  | _ => .string ""

/-- The parts between commas, in order. -/
def splitComma : List Char → List (List Char)
  | [] => [[]]
  | c :: rest =>
    if c = ',' then [] :: splitComma rest
    else match splitComma rest with
      | first :: others => (c :: first) :: others
      | [] => [[c]]

def fieldMaskFromJson (desc : DescriptorProto) (json : Json) : JsonResult DynamicMessage :=
  match json with
  | .string s =>
    let paths := if s = "" then [] else splitComma s.toList
    .ok ((DynMsg.new desc noPool).setField 1
      (.list (paths.map fun path => .scalar (.string (String.ofList path)))))
  | _ => .err (.typeMismatch "FieldMask" "expected string")

end FieldMask

section Wrappers

variable (libs : Libraries)

def scalarJson (t : FieldType) (s : ScalarValue) : JsonResult Json :=
  match t, s with
  | .string, .string x => .ok (.string x)
  | .bytes, .bytes b => .ok (.string (libs.standard.encode b))
  | .bool, .bool b => .ok (.bool b)
  | .double, .f64 x | .float, .f64 x =>
    (Outcome.ofOption (.wellKnown "bad float") (Number.fromF64 x)).map .number
  | _, .i64 x => .ok (.number (.fromI64 x))
  | _, .u64 x => .ok (.number (.posInt x))
  | _, _ => .err (.typeMismatch "wrapper" "unsupported")

def wrapperToJson (desc : DescriptorProto) (msg : DynamicMessage) : JsonResult Json :=
  match msg.getField 1 with
  | none => .ok .null
  | some (.scalar s) => scalarJson libs ((fieldType desc 1).getD .string) s
  | some _ => .err (.typeMismatch "wrapper" "expected scalar")

def wrappedScalar (t : FieldType) (json : Json) : JsonResult ScalarValue :=
  match t, json with
  | .string, .string s => .ok (.string s)
  | .bytes, .string s =>
    (Outcome.ofOption (.typeMismatch "BytesValue" "bad base64")
      ((libs.standard.decode s).or (libs.urlSafe.decode s))).map .bytes
  | .bool, .bool b => .ok (.bool b)
  | .double, .number n | .float, .number n => .ok (.f64 n.asF64)
  | _, .number n => .ok (.i64 (n.asI64.getD 0))
  | _, _ => .err (.typeMismatch "wrapper" "mismatch")

def wrapperFromJson (desc : DescriptorProto) (json : Json) : JsonResult DynamicMessage := do
  let s ← wrappedScalar libs ((fieldType desc 1).getD .string) json
  .ok ((DynMsg.new desc noPool).setField 1 (.scalar s))

end Wrappers

section Printing

variable (libs : Libraries) (pool : DescriptorPool)
  (recurse : Nat → DescriptorProto → DynamicMessage → JsonResult Json) (depth : Nat)

/-- A `Value` in a struct or a list; without its descriptor everything is null. -/
def nestedToJson (v : Value) : JsonResult Json :=
  match pool.lookupMessage ".google.protobuf.Value", v with
  | some d, .message m => recurse (depth + 1) d m
  | _, _ => .ok .null

/-- Entries are inserted one by one; keys that are no texts are passed over. -/
def structEntries (entries : List (Value × Value)) (out : List (String × Json)) :
    JsonResult (List (String × Json)) :=
  match entries with
  | [] => .ok out
  | (.scalar (.string key), v) :: rest => do
    let json ← nestedToJson pool recurse depth v
    structEntries rest (SortedMap.insert out key json)
  | _ :: rest => structEntries rest out

def structToJson (msg : DynamicMessage) : JsonResult Json :=
  match msg.getField 1 with
  | some (.map entries) => (structEntries pool recurse depth entries []).map .object
  | _ => .ok (.object [])

def listValueToJson (msg : DynamicMessage) : JsonResult Json :=
  match msg.getField 1 with
  | some (.list items) => (items.mapM (nestedToJson pool recurse depth)).map .array
  | _ => .ok (.array [])

/-- A message of a type that has to be in the pool. -/
def namedToJson (name : String) (m : DynamicMessage) : JsonResult Json := do
  let d ← Outcome.ofOption (.unresolvedType name) (pool.lookupMessage name)
  recurse (depth + 1) d m

/-- The fields are tried in the order of their numbers. -/
def WellKnown.valueToJson (msg : DynamicMessage) : JsonResult Json :=
  if (getI64 msg 1).isSome then .ok .null
  else match getF64 msg 2 with
  | some x => (Outcome.ofOption (.wellKnown "bad number") (Number.fromF64 x)).map .number
  | none => match getStr msg 3 with
  | some s => .ok (.string s)
  | none => match getBool msg 4 with
  | some b => .ok (.bool b)
  | none => match getMsg msg 5 with
  | some m => namedToJson pool recurse depth ".google.protobuf.Struct" m
  | none => match getMsg msg 6 with
  | some m => namedToJson pool recurse depth ".google.protobuf.ListValue" m
  | none => .ok .null

/-- The descriptor that a type URL names. -/
def anyType (typeUrl : String) : Option DescriptorProto :=
  (stripPrefix "type.googleapis.com/" typeUrl).bind pool.lookupMessage

/-- The value is decoded if its type is known; a form that is no object is dropped. -/
def anyToJson (msg : DynamicMessage) : JsonResult Json :=
  let typeUrl := (getStr msg 1).getD ""
  let valueBytes := match msg.getField 2 with
    | some (.scalar (.bytes b)) => b
    | _ => []
  let out := [("@type", Json.string typeUrl)]
  match anyType pool typeUrl with
  | some desc => do
    let inner ← (DynMsg.decode pool desc (.new (.ofBytes valueBytes))).mapErr
      fun e => JsonError.wellKnown (reflectErrorText e)
    match ← recurse (depth + 1) desc inner with
    | .object entries =>
      .ok (.object (entries.foldl (fun out entry => SortedMap.insert out entry.1 entry.2) out))
    | _ => .ok (.object out)
  | none =>
    .ok (.object (SortedMap.insert out "value" (.string (libs.standard.encode valueBytes))))

/-- The special form of a message, if its type has one. -/
def wellKnownToJson (desc : DescriptorProto) (msg : DynamicMessage) : JsonResult (Option Json) :=
  match wellKnown? pool desc with
  | none => .ok none
  | some .timestamp => (timestampToJson libs msg).map some
  | some .duration => .ok (some (durationToJson msg))
  | some .fieldMask => .ok (some (fieldMaskToJson msg))
  | some .struct => (structToJson pool recurse depth msg).map some
  | some .value => (WellKnown.valueToJson pool recurse depth msg).map some
  | some .listValue => (listValueToJson pool recurse depth msg).map some
  | some .any => (anyToJson libs pool recurse depth msg).map some
  | some .empty => .ok (some (.object []))
  | some .wrapper => (wrapperToJson libs desc msg).map some

end Printing

section Parsing

variable (libs : Libraries) (pool : DescriptorPool)
  (recurse : Nat → DescriptorProto → Json → JsonResult DynamicMessage) (depth : Nat)
  (desc : DescriptorProto) (json : Json)

/-- A `Value` in a struct or a list; without its descriptor an empty message. -/
def nestedFromJson (v : Json) : JsonResult DynamicMessage :=
  match pool.lookupMessage ".google.protobuf.Value" with
  | some d => recurse (depth + 1) d v
  | none => .ok (DynMsg.new {} pool)

def structFromJson : JsonResult DynamicMessage :=
  match json with
  | .object obj => do
    let entries ← obj.mapM fun entry => do
      let value ← nestedFromJson pool recurse depth entry.2
      .ok (Value.scalar (.string entry.1), Value.message value)
    .ok ((DynMsg.new desc pool).setField 1 (.map entries))
  | _ => .err (.typeMismatch "Struct" "expected object")

def listValueFromJson : JsonResult DynamicMessage :=
  match json with
  | .array arr => do
    let items ← arr.mapM fun it => (nestedFromJson pool recurse depth it).map Value.message
    .ok ((DynMsg.new desc pool).setField 1 (.list items))
  | _ => .err (.typeMismatch "ListValue" "expected array")

/-- A message of a type that has to be in the pool. -/
def namedFromJson (name : String) : JsonResult DynamicMessage := do
  let d ← Outcome.ofOption (.unresolvedType name) (pool.lookupMessage name)
  recurse (depth + 1) d json

def valueFromJson : JsonResult DynamicMessage :=
  let msg : DynamicMessage := DynMsg.new desc pool
  match json with
  | .null => .ok (msg.setField 1 (.scalar (.i64 0)))
  | .bool b => .ok (msg.setField 4 (.scalar (.bool b)))
  | .number n => .ok (msg.setField 2 (.scalar (.f64 n.asF64)))
  | .string s => .ok (msg.setField 3 (.scalar (.string s)))
  | .object _ => do
    let inner ← namedFromJson pool recurse depth json ".google.protobuf.Struct"
    .ok (msg.setField 5 (.message inner))
  | .array _ => do
    let inner ← namedFromJson pool recurse depth json ".google.protobuf.ListValue"
    .ok (msg.setField 6 (.message inner))

/-- The value is encoded if its type is known, else kept if it is base64. -/
def anyFromJson : JsonResult DynamicMessage :=
  match json with
  | .object obj =>
    match SortedMap.get? obj "@type" with
    | some (.string typeUrl) =>
      let msg : DynamicMessage := (DynMsg.new desc pool).setField 1 (.scalar (.string typeUrl))
      match anyType pool typeUrl with
      | some d => do
        let inner ← recurse (depth + 1) d (.object (SortedMap.erase obj "@type"))
        let bytes ← inner.encode.mapErr fun e => JsonError.wellKnown (reflectErrorText e)
        .ok (msg.setField 2 (.scalar (.bytes bytes)))
      | none =>
        match SortedMap.get? obj "value" with
        | some (.string b64) => do
          let bytes ← Outcome.ofOption (.wellKnown "bad Any value")
            ((libs.standard.decode b64).or (libs.urlSafe.decode b64))
          .ok (msg.setField 2 (.scalar (.bytes bytes)))
        | _ => .ok msg
    | _ => .err (.wellKnown "Any missing @type")
  | _ => .err (.typeMismatch "Any" "expected object")

/-- The message of a special form, if the type has one. An empty one is read from anything. -/
def wellKnownFromJson : JsonResult (Option DynamicMessage) :=
  match wellKnown? pool desc with
  | none => .ok none
  | some .timestamp => (timestampFromJson libs desc json).map some
  | some .duration => (durationFromJson desc json).map some
  | some .fieldMask => (fieldMaskFromJson desc json).map some
  | some .struct => (structFromJson pool recurse depth desc json).map some
  | some .value => (valueFromJson pool recurse depth desc json).map some
  | some .listValue => (listValueFromJson pool recurse depth desc json).map some
  | some .any => (anyFromJson libs pool recurse depth desc json).map some
  | some .empty => .ok (some (DynMsg.new desc pool))
  | some .wrapper => (wrapperFromJson libs desc json).map some

end Parsing

end TptProto.Json
