import TptProto.Json.Print

/-! JSON to dynamic messages. -/

namespace TptProto.Json

open TptProto.Foundation TptProto.Core TptProto.Descriptor TptProto.Reflect

variable (libs : Libraries) (pool : DescriptorPool) (opts : JsonOptions)

section Body

variable (recurse : Nat → DescriptorProto → Json → JsonResult DynamicMessage)

/-- An array is read as a list for every scalar type, whatever the label of the field. -/
def jsonToValue (field : FieldDescriptorProto) (jv : Json) (depth : Nat) : JsonResult Value :=
  let fname := field.name.getD ""
  match typeOf field with
  | .message | .group => do
    let sub ← Outcome.ofOption (.unresolvedType (field.typeName.getD ""))
      (pool.lookupMessage (field.typeName.getD ""))
    let dm ← recurse (depth + 1) sub jv
    .ok (.message dm)
  | .enum => jsonToEnum pool field jv
  | t =>
    match jv with
    | .array arr =>
      (arr.mapM fun it => (jsonToScalar libs t it fname opts).map Value.scalar).map .list
    | _ => (jsonToScalar libs t jv fname opts).map .scalar

theorem jsonToValue_scalar {field : FieldDescriptorProto} (scalar : IsScalar (typeOf field))
    {jv : Json} (single : ∀ arr, jv ≠ .array arr) (depth : Nat) :
    jsonToValue libs pool opts recurse field jv depth =
      (jsonToScalar libs (typeOf field) jv (field.name.getD "") opts).map .scalar := by
  obtain ⟨notMessage, notGroup, notEnum⟩ := scalar
  unfold jsonToValue
  split
  · contradiction
  · contradiction
  · contradiction
  · split
    · rename_i arr
      exact (single arr rfl).elim
    · rfl

theorem jsonToValue_array {field : FieldDescriptorProto} (scalar : IsScalar (typeOf field))
    (arr : List Json) (depth : Nat) :
    jsonToValue libs pool opts recurse field (.array arr) depth =
      (arr.mapM fun it =>
        (jsonToScalar libs (typeOf field) it (field.name.getD "") opts).map Value.scalar).map
          .list := by
  obtain ⟨notMessage, notGroup, notEnum⟩ := scalar
  unfold jsonToValue
  split
  · contradiction
  · contradiction
  · contradiction
  · rfl

def jsonToEntries (kf vf : FieldDescriptorProto) (depth : Nat) (obj : List (String × Json)) :
    JsonResult (List (Value × Value)) :=
  obj.mapM fun entry => do
    let key ← jsonToMapKey kf entry.1
    let value ← jsonToValue libs pool opts recurse vf entry.2 (depth + 1)
    .ok (key, value)

/-- The value of a field that is present and not null. -/
def jsonToField (field : FieldDescriptorProto) (jv : Json) (depth : Nat) : JsonResult Value :=
  if isMapField pool field then
    match mapEntryFields pool field with
    | none => .err (.wellKnown "cannot resolve map entry")
    | some (kf, vf) =>
      match jv with
      | .object obj => (jsonToEntries libs pool opts recurse kf vf depth obj).map .map
      | _ => .err (.typeMismatch (fieldJsonName field opts) "expected object for map")
  else jsonToValue libs pool opts recurse field jv (depth + 1)

/-- What the object holds under the name of a field. -/
def memberOf (map : List (String × Json)) (field : FieldDescriptorProto) : Option Json :=
  if field.extendee.isSome then none else SortedMap.get? map (fieldJsonName field opts)

def jsonToFieldStep (map : List (String × Json)) (depth : Nat) (msg : DynamicMessage)
    (field : FieldDescriptorProto) : JsonResult DynamicMessage :=
  match memberOf opts map field with
  | none | some .null => .ok msg
  | some jv => do
    let value ← jsonToField libs pool opts recurse field jv depth
    .ok (msg.setField (field.number.getD 0) value)

/-- The first key that no field has used. -/
def unknownKey (desc : DescriptorProto) (map : List (String × Json)) : Option String :=
  (map.map Prod.fst).find? fun key =>
    !(desc.field.any fun field => field.extendee.isNone && fieldJsonName field opts = key)

/-- The conversion of one message within the depth limit. -/
def parseBody (depth : Nat) (desc : DescriptorProto) (json : Json) : JsonResult DynamicMessage := do
  match ← wellKnownFromJson libs pool recurse depth desc json with
  | some dm => .ok dm
  | none =>
    match json with
    | .object map => do
      let msg ← desc.field.foldlM (jsonToFieldStep libs pool opts recurse map depth)
        (DynMsg.new desc pool)
      match unknownKey opts desc map with
      | some key => if opts.ignoreUnknownFields then .ok msg else .err (.unknownField key)
      | none => .ok msg
    | _ => .err (.typeMismatch (desc.name.getD "") "expected object")

end Body

/-- Every nested message lies deeper, so that no more than `maxDepth + 1` are nested. -/
def jsonToMessageImpl : Nat → Nat → DescriptorProto → Json → JsonResult DynamicMessage
  | 0 => fun _ _ _ => .err (depthExceeded opts)
  | left + 1 => fun depth desc json =>
    if depth > opts.maxDepth then .err (depthExceeded opts)
    else parseBody libs pool opts (jsonToMessageImpl left) depth desc json

def jsonToMessage (desc : DescriptorProto) (json : Json) : JsonResult DynamicMessage :=
  jsonToMessageImpl libs pool opts (opts.maxDepth + 1) 0 desc json

end TptProto.Json
