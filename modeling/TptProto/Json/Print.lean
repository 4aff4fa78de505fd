import TptProto.Json.WellKnown

/-! Dynamic messages to JSON. -/

namespace TptProto.Json

open TptProto.Foundation TptProto.Core TptProto.Descriptor TptProto.Reflect

variable (libs : Libraries) (pool : DescriptorPool) (opts : JsonOptions)

section Body

variable (recurse : Nat → DescriptorProto → DynamicMessage → JsonResult Json)

def scalarOrComplexToJson (field : FieldDescriptorProto) (t : FieldType) (value : Value)
    (depth : Nat) : JsonResult Json :=
  let fname := field.name.getD ""
  match t with
  | .message | .group =>
    match value with
    | .message dm => do
      let sub ← Outcome.ofOption (.unresolvedType (field.typeName.getD ""))
        (pool.lookupMessage (field.typeName.getD ""))
      recurse (depth + 1) sub dm
    | _ => .err (.typeMismatch fname "expected message")
  | .enum =>
    match value with
    | .enum n => .ok (enumToJson pool field n opts)
    | _ => .err (.typeMismatch fname "expected enum")
  | _ =>
    match value with
    | .scalar s => scalarToJson libs t s opts
    | _ => .err (.typeMismatch fname "expected scalar")

/-- Every list is written as an array, whatever the label of the field. -/
def valueToJson (field : FieldDescriptorProto) (value : Value) (depth : Nat) : JsonResult Json :=
  match value with
  | .list items =>
    (items.mapM fun it =>
      scalarOrComplexToJson libs pool opts recurse field (typeOf field) it (depth + 1)).map .array
  | other => scalarOrComplexToJson libs pool opts recurse field (typeOf field) other (depth + 1)

/-- Entries are inserted one by one, so that of equal keys the last stays. -/
def mapToJson (kf vf : FieldDescriptorProto) (depth : Nat) (entries : List (Value × Value)) :
    JsonResult (List (String × Json)) :=
  entries.foldlM (fun obj entry => do
    let key ← mapKeyToJson kf entry.1
    let json ← valueToJson libs pool opts recurse vf entry.2 (depth + 1)
    .ok (SortedMap.insert obj key json)) []

/-- What one field adds to the object. -/
def fieldToJson (field : FieldDescriptorProto) (stored : Option Value) (depth : Nat) :
    JsonResult (Option Json) :=
  if isMapField pool field then
    match stored with
    | none => .ok (if opts.alwaysPrintPrimitiveFields then some (.object []) else none)
    | some value =>
      match mapEntryFields pool field with
      | none => .err (.wellKnown ("cannot resolve map entry for " ++ field.name.getD "?"))
      | some (kf, vf) =>
        match value with
        | .map entries =>
          (mapToJson libs pool opts recurse kf vf depth entries).map fun obj => some (.object obj)
        | _ => .err (.typeMismatch (fieldJsonName field opts) "expected map")
  else
    match stored with
    | none =>
      .ok (if opts.alwaysPrintPrimitiveFields then defaultJsonValue pool field opts else none)
    | some value => (valueToJson libs pool opts recurse field value (depth + 1)).map some

/-- Fields are inserted one by one, so that of equal names the last stays. -/
def fieldsToJson (msg : DynamicMessage) (depth : Nat) (fields : List FieldDescriptorProto) :
    JsonResult (List (String × Json)) :=
  fields.foldlM (fun out field => do
    if field.extendee.isSome then .ok out
    else
      match ← fieldToJson libs pool opts recurse field (msg.getField (field.number.getD 0)) depth with
      | some json => .ok (SortedMap.insert out (fieldJsonName field opts) json)
      | none => .ok out) []

/-- The conversion of one message within the depth limit. -/
def messageBody (depth : Nat) (desc : DescriptorProto) (msg : DynamicMessage) : JsonResult Json := do
  match ← wellKnownToJson libs pool recurse depth desc msg with
  | some json => .ok json
  | none => (fieldsToJson libs pool opts recurse msg depth desc.field).map .object

end Body

def depthExceeded : JsonError := .recursionLimit s!"JSON nesting exceeds max_depth {opts.maxDepth}"

/-- Every nested message lies deeper, so that no more than `maxDepth + 1` are nested. -/
def messageToJsonImpl : Nat → Nat → DescriptorProto → DynamicMessage → JsonResult Json
  | 0 => fun _ _ _ => .err (depthExceeded opts)
  | left + 1 => fun depth desc msg =>
    if depth > opts.maxDepth then .err (depthExceeded opts)
    else messageBody libs pool opts (messageToJsonImpl left) depth desc msg

def messageToJson (desc : DescriptorProto) (msg : DynamicMessage) : JsonResult Json :=
  messageToJsonImpl libs pool opts (opts.maxDepth + 1) 0 desc msg

end TptProto.Json
