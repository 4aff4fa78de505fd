import TptProto.Json.PrintDepth

/-! How deep the messages nest that are printed as JSON, as the reading of the text counts. -/

namespace TptProto.Json

open TptProto.Foundation TptProto.Core TptProto.Descriptor TptProto.Reflect

/-- The error of a depth that is exceeded. -/
def IsLimit (error : JsonError) : Prop := ∃ text, error = .recursionLimit text

/-- The message in a value, if it is one. -/
def messageOf : Value → Option DynamicMessage
  | .message m => some m
  | _ => none

/-- The message that a `Value` holds, with the name of its type, if that is what is printed. -/
def structuredOf (msg : DynamicMessage) : Option (String × DynamicMessage) :=
  if (getI64 msg 1).isSome || (getF64 msg 2).isSome || (getStr msg 3).isSome
      || (getBool msg 4).isSome then none
  else ((getMsg msg 5).map fun m => (".google.protobuf.Struct", m)).or
    ((getMsg msg 6).map fun m => (".google.protobuf.ListValue", m))

/-- The message that an `Any` carries, of a type in the pool. -/
structure Carries (pool : DescriptorPool) (msg : DynamicMessage) (sub : DescriptorProto)
    (inner : DynamicMessage) : Prop where
  typed : anyType pool ((getStr msg 1).getD "") = some sub
  decoded : DynMsg.decode pool sub (.new (.ofBytes (match msg.getField 2 with
    | some (.scalar (.bytes b)) => b
    | _ => []))) = .ok inner

/-- What is read from the text of a value: a message of a type, or something with nothing in it.
A list of messages is printed as an array, which is read as one message. -/
inductive FieldReads (pool : DescriptorPool) :
    FieldDescriptorProto → Value → Nat → DescriptorProto × Option DynamicMessage → Prop where
  | message {field : FieldDescriptorProto} {sub : DescriptorProto} {msg : DynamicMessage}
      (holds : HoldsType pool field sub) : FieldReads pool field (.message msg) 2 (sub, some msg)
  | list {field : FieldDescriptorProto} {sub : DescriptorProto} {items : List Value}
      (holds : HoldsType pool field sub) : FieldReads pool field (.list items) 2 (sub, none)
  | values {field : FieldDescriptorProto} {sub list : DescriptorProto} {items : List Value}
      (holds : HoldsType pool field sub) (known : wellKnown? pool sub = some .value)
      (resolved : pool.lookupMessage ".google.protobuf.ListValue" = some list) :
      FieldReads pool field (.list items) 3 (list, none)
  | item {field : FieldDescriptorProto} {sub : DescriptorProto} {items : List Value}
      {msg : DynamicMessage} (holds : HoldsType pool field sub)
      (known : wellKnown? pool sub = some .value ∨ wellKnown? pool sub = some .listValue)
      (member : .message msg ∈ items) : FieldReads pool field (.list items) 4 (sub, some msg)

/-- What is read from the text of a message, so many levels deeper. -/
inductive ReadsIn (pool : DescriptorPool) : DescriptorProto × Option DynamicMessage → Nat →
    DescriptorProto × Option DynamicMessage → Prop where
  | field {desc : DescriptorProto} {msg : DynamicMessage} {field : FieldDescriptorProto}
      {value : Value} {deeper : Nat} {inner : DescriptorProto × Option DynamicMessage}
      (plain : wellKnown? pool desc = none) (inside : field ∈ desc.field)
      (own : field.extendee.isSome = false) (noMap : isMapField pool field = false)
      (held : msg.getField (field.number.getD 0) = some value)
      (reads : FieldReads pool field value deeper inner) : ReadsIn pool (desc, some msg) deeper inner
  | entry {desc : DescriptorProto} {msg : DynamicMessage} {field kf vf : FieldDescriptorProto}
      {entries : List (Value × Value)} {entry : Value × Value} {deeper : Nat}
      {inner : DescriptorProto × Option DynamicMessage}
      (plain : wellKnown? pool desc = none) (inside : field ∈ desc.field)
      (own : field.extendee.isSome = false) (isMap : isMapField pool field = true)
      (entryFields : mapEntryFields pool field = some (kf, vf))
      (held : msg.getField (field.number.getD 0) = some (.map entries)) (member : entry ∈ entries)
      (reads : FieldReads pool vf entry.2 deeper inner) : ReadsIn pool (desc, some msg) deeper inner
  | struct {desc sub : DescriptorProto} {msg : DynamicMessage} {entries : List (Value × Value)}
      {key : String} {value : Value} (known : wellKnown? pool desc = some .struct)
      (resolved : pool.lookupMessage ".google.protobuf.Value" = some sub)
      (held : msg.getField 1 = some (.map entries))
      (member : (.scalar (.string key), value) ∈ entries) :
      ReadsIn pool (desc, some msg) 1 (sub, messageOf value)
  | listValue {desc sub : DescriptorProto} {msg : DynamicMessage} {items : List Value}
      {value : Value} (known : wellKnown? pool desc = some .listValue)
      (resolved : pool.lookupMessage ".google.protobuf.Value" = some sub)
      (held : msg.getField 1 = some (.list items)) (member : value ∈ items) :
      ReadsIn pool (desc, some msg) 1 (sub, messageOf value)
  | value {desc sub : DescriptorProto} {msg inner : DynamicMessage} {name : String}
      (known : wellKnown? pool desc = some .value) (structured : structuredOf msg = some (name, inner))
      (resolved : pool.lookupMessage name = some sub) : ReadsIn pool (desc, some msg) 1 (sub, some inner)
  | any {desc sub : DescriptorProto} {msg inner : DynamicMessage}
      (known : wellKnown? pool desc = some .any) (carries : Carries pool msg sub inner)
      (apart : wellKnown? pool sub ≠ some .any) : ReadsIn pool (desc, some msg) 1 (sub, some inner)
  | anyInAny {desc sub : DescriptorProto} {msg inner : DynamicMessage}
      (known : wellKnown? pool desc = some .any) (carries : Carries pool msg sub inner)
      (again : wellKnown? pool sub = some .any) : ReadsIn pool (desc, some msg) 0 (sub, some inner)
  | emptied {desc sub struct : DescriptorProto} {msg inner : DynamicMessage}
      (known : wellKnown? pool desc = some .any) (carries : Carries pool msg sub inner)
      (value : wellKnown? pool sub = some .value)
      (resolved : pool.lookupMessage ".google.protobuf.Struct" = some struct) :
      ReadsIn pool (desc, some msg) 2 (struct, none)

/-- The keys of a struct. -/
def structKeys (msg : DynamicMessage) : List String :=
  match msg.getField 1 with
  | some (.map entries) => entries.filterMap fun entry =>
    match entry.1 with
    | .scalar (.string key) => some key
    | _ => none
  | _ => []

/-- The names that the members of the printed object can have, but for an `Any`. -/
def memberNames (pool : DescriptorPool) (opts : JsonOptions) (desc : DescriptorProto)
    (msg : DynamicMessage) : List String :=
  match wellKnown? pool desc with
  | none => (desc.field.filter fun field => !field.extendee.isSome).map fun field =>
    fieldJsonName field opts
  | some .struct => structKeys msg
  | some .value =>
    match structuredOf msg with
    | some (_, inner) => structKeys inner
    | none => []
  | _ => []

/-- The fields of a message have different names, and what an `Any` carries has no member with the
name of its type. -/
structure Legible (pool : DescriptorPool) (opts : JsonOptions)
    (source : DescriptorProto × Option DynamicMessage) : Prop where
  apart : wellKnown? pool source.1 = none → ∀ f ∈ source.1.field, ∀ g ∈ source.1.field,
    f.extendee.isSome = false → g.extendee.isSome = false →
      fieldJsonName f opts = fieldJsonName g opts → f = g
  tagged : wellKnown? pool source.1 = some .any → ∀ msg sub inner, source.2 = some msg →
    Carries pool msg sub inner → "@type" ∉ memberNames pool opts sub inner

/-- The structured types of the pool are known by their names. -/
structure Structured (pool : DescriptorPool) : Prop where
  value : ∀ desc, pool.lookupMessage ".google.protobuf.Value" = some desc →
    wellKnown? pool desc = some .value
  struct : ∀ desc, pool.lookupMessage ".google.protobuf.Struct" = some desc →
    wellKnown? pool desc = some .struct
  listValue : ∀ desc, pool.lookupMessage ".google.protobuf.ListValue" = some desc →
    wellKnown? pool desc = some .listValue

section Leaves

variable (libs : Libraries) (opts : JsonOptions) {pool : DescriptorPool} {desc : DescriptorProto}
  {json : Json} {depth : Nat}

private theorem mismatch_noLimit {field text : String} : ¬ IsLimit (.typeMismatch field text) :=
  fun ⟨_, same⟩ => nomatch same

private theorem wellKnown_noLimit {text : String} : ¬ IsLimit (.wellKnown text) :=
  fun ⟨_, same⟩ => nomatch same

private theorem number_noLimit {field text : String} : ¬ IsLimit (.invalidNumber field text) :=
  fun ⟨_, same⟩ => nomatch same

private theorem enum_noLimit {name field : String} : ¬ IsLimit (.unknownEnum name field) :=
  fun ⟨_, same⟩ => nomatch same

private theorem unresolved_noLimit {name : String} : ¬ IsLimit (.unresolvedType name) :=
  fun ⟨_, same⟩ => nomatch same

private theorem unknown_noLimit {name : String} : ¬ IsLimit (.unknownField name) :=
  fun ⟨_, same⟩ => nomatch same

private theorem parseI64_noLimit (jv : Json) (fname : String) :
    (parseI64 jv fname).Avoids IsLimit := by
  unfold parseI64
  split
  · exact .ok _
  · exact (Outcome.Avoids.ofOption number_noLimit _).map _
  · exact .err mismatch_noLimit

private theorem parseU64_noLimit (jv : Json) (fname : String) :
    (parseU64 jv fname).Avoids IsLimit := by
  unfold parseU64
  split
  · exact .ok _
  · exact (Outcome.Avoids.ofOption number_noLimit _).map _
  · exact .err mismatch_noLimit

private theorem jsonToScalar_noLimit (t : FieldType) (jv : Json) (fname : String) :
    (jsonToScalar libs t jv fname opts).Avoids IsLimit := by
  cases t with
  | int32 | sint32 | sfixed32 | int64 | sint64 | sfixed64 => exact (parseI64_noLimit jv fname).map _
  | uint32 | fixed32 | uint64 | fixed64 => exact (parseU64_noLimit jv fname).map _
  | enum | message | group => exact .err mismatch_noLimit
  | string | bool | bytes | double | float =>
    cases jv <;> first
      | exact .ok _
      | exact .err mismatch_noLimit
      | exact (Outcome.Avoids.ofOption mismatch_noLimit _).map _

private theorem jsonToEnum_noLimit (field : FieldDescriptorProto) (jv : Json) :
    (jsonToEnum pool field jv).Avoids IsLimit := by
  unfold jsonToEnum
  split
  · exact .ok _
  · split
    · exact .ok _
    · split
      · exact .ok _
      · exact .err enum_noLimit
  · exact .err mismatch_noLimit

private theorem jsonToMapKey_noLimit (kf : FieldDescriptorProto) (k : String) :
    (jsonToMapKey kf k).Avoids IsLimit := by
  unfold jsonToMapKey
  split
  · exact .ok _
  · exact (Outcome.Avoids.ofOption mismatch_noLimit _).map _
  iterate 10
    next => exact (Outcome.Avoids.ofOption mismatch_noLimit _).map _
  · exact .err mismatch_noLimit

private theorem timestampFromJson_noLimit : (timestampFromJson libs desc json).Avoids IsLimit := by
  unfold timestampFromJson
  split
  · split
    · exact .ok _
    · exact .err wellKnown_noLimit
  · exact .err mismatch_noLimit

private theorem durationFromJson_noLimit : (durationFromJson desc json).Avoids IsLimit := by
  unfold durationFromJson
  split
  · refine (Outcome.Avoids.ofOption wellKnown_noLimit _).bind fun trimmed _ => ?_
    refine (Outcome.Avoids.ofOption wellKnown_noLimit _).bind fun secs _ => ?_
    refine Outcome.Avoids.bind ?_ fun nanos _ => .ok _
    unfold durationNanos
    split
    · exact .ofOption wellKnown_noLimit _
    · exact .ok _
  · exact .err mismatch_noLimit

private theorem wrapperFromJson_noLimit : (wrapperFromJson libs desc json).Avoids IsLimit := by
  refine Outcome.Avoids.bind ?_ fun s _ => .ok _
  unfold wrappedScalar
  split
  · exact .ok _
  · exact (Outcome.Avoids.ofOption mismatch_noLimit _).map _
  · exact .ok _
  · exact .ok _
  · exact .ok _
  · exact .ok _
  · exact .err mismatch_noLimit

end Leaves

section Shapes

variable (libs : Libraries) {pool : DescriptorPool} {opts : JsonOptions} {desc : DescriptorProto}
  {json : Json} {levels deeper : Nat}

/-- Within the limit, the body decides. -/
private theorem impl_noLimit (inside : deeper ≤ opts.maxDepth)
    (enough : opts.maxDepth < deeper + levels)
    (body : ∀ left, opts.maxDepth < deeper + 1 + left →
      (parseBody libs pool opts (jsonToMessageImpl libs pool opts left) deeper desc json).Avoids
        IsLimit) :
    (jsonToMessageImpl libs pool opts levels deeper desc json).Avoids IsLimit := by
  cases levels with
  | zero => omega
  | succ left =>
    unfold jsonToMessageImpl
    rw [if_neg (by omega)]
    exact body left (by omega)

/-- The body of a special form is the form. -/
private theorem body_noLimit {recurse : Nat → DescriptorProto → Json → JsonResult DynamicMessage}
    (x : JsonResult DynamicMessage)
    (form : wellKnownFromJson libs pool recurse deeper desc json = x.map some)
    (avoids : x.Avoids IsLimit) : (parseBody libs pool opts recurse deeper desc json).Avoids IsLimit := by
  unfold parseBody
  rw [form]
  cases x with
  | ok dm => exact .ok dm
  | err error => exact avoids
  | panic | outOfFuel => exact nofun

/-- The special forms in which nothing is nested. -/
private theorem leaf_noLimit {recurse : Nat → DescriptorProto → Json → JsonResult DynamicMessage}
    {form : WellKnown} (known : wellKnown? pool desc = some form)
    (leaf : form ∉ [.struct, .listValue, .value, .any]) :
    (parseBody libs pool opts recurse deeper desc json).Avoids IsLimit := by
  cases form with
  | timestamp =>
    exact body_noLimit libs _ (by rw [wellKnownFromJson, known]) (timestampFromJson_noLimit libs)
  | duration => exact body_noLimit libs _ (by rw [wellKnownFromJson, known]) durationFromJson_noLimit
  | fieldMask =>
    refine body_noLimit libs _ (by rw [wellKnownFromJson, known]) ?_
    unfold fieldMaskFromJson
    split
    · exact .ok _
    · exact .err mismatch_noLimit
  | empty =>
    exact body_noLimit libs (.ok (DynMsg.new desc pool)) (by rw [wellKnownFromJson, known]; rfl) (.ok _)
  | wrapper =>
    exact body_noLimit libs _ (by rw [wellKnownFromJson, known]) (wrapperFromJson_noLimit libs)
  | struct | listValue | value | any => exact absurd (by decide) leaf

/-- Whatever a message without a special form is read from, but for an object. -/
private theorem plain_noLimit {recurse : Nat → DescriptorProto → Json → JsonResult DynamicMessage}
    (plain : wellKnown? pool desc = none) (noObject : ∀ map, json ≠ .object map) :
    (parseBody libs pool opts recurse deeper desc json).Avoids IsLimit := by
  unfold parseBody wellKnownFromJson
  rw [plain]
  cases json with
  | object map => exact (noObject map rfl).elim
  | null | bool | number | string | array => exact .err mismatch_noLimit

/-- Nothing is nested in a null. -/
private theorem null_noLimit (inside : deeper ≤ opts.maxDepth)
    (enough : opts.maxDepth < deeper + levels) :
    (jsonToMessageImpl libs pool opts levels deeper desc .null).Avoids IsLimit := by
  refine impl_noLimit libs inside enough ?_
  intro left _
  cases known : wellKnown? pool desc with
  | none => exact plain_noLimit libs known fun _ same => by cases same
  | some form =>
    cases form with
    | struct =>
      refine body_noLimit libs _ (by rw [wellKnownFromJson, known]) ?_
      exact .err mismatch_noLimit
    | listValue =>
      refine body_noLimit libs _ (by rw [wellKnownFromJson, known]) ?_
      exact .err mismatch_noLimit
    | any =>
      refine body_noLimit libs _ (by rw [wellKnownFromJson, known]) ?_
      exact .err mismatch_noLimit
    | value =>
      refine body_noLimit libs _ (by rw [wellKnownFromJson, known]) ?_
      exact .ok _
    | _ => exact leaf_noLimit libs known (by decide)

/-- An array nests the list that a `Value` is, or the items that a `ListValue` has. -/
private theorem array_noLimit (inside : deeper ≤ opts.maxDepth)
    (enough : opts.maxDepth < deeper + levels) {jsons : List Json}
    (list : wellKnown? pool desc = some .value → ∀ sub,
      pool.lookupMessage ".google.protobuf.ListValue" = some sub → ∀ left,
      opts.maxDepth < deeper + 1 + left →
        (jsonToMessageImpl libs pool opts left (deeper + 1) sub (.array jsons)).Avoids IsLimit)
    (items : wellKnown? pool desc = some .listValue → ∀ sub,
      pool.lookupMessage ".google.protobuf.Value" = some sub → ∀ item ∈ jsons, ∀ left,
      opts.maxDepth < deeper + 1 + left →
        (jsonToMessageImpl libs pool opts left (deeper + 1) sub item).Avoids IsLimit) :
    (jsonToMessageImpl libs pool opts levels deeper desc (.array jsons)).Avoids IsLimit := by
  refine impl_noLimit libs inside enough ?_
  intro left enough
  cases known : wellKnown? pool desc with
  | none => exact plain_noLimit libs known fun _ same => by cases same
  | some form =>
    cases form with
    | struct =>
      refine body_noLimit libs _ (by rw [wellKnownFromJson, known]) ?_
      exact .err mismatch_noLimit
    | any =>
      refine body_noLimit libs _ (by rw [wellKnownFromJson, known]) ?_
      exact .err mismatch_noLimit
    | value =>
      refine body_noLimit libs _ (by rw [wellKnownFromJson, known]) ?_
      refine Outcome.Avoids.bind ?_ fun inner _ => .ok _
      refine (Outcome.Avoids.ofOption unresolved_noLimit _).bind ?_
      intro sub resolved
      exact list known sub (Outcome.ofOption_eq_ok.mp resolved) left enough
    | listValue =>
      refine body_noLimit libs _ (by rw [wellKnownFromJson, known]) ?_
      refine Outcome.Avoids.bind (Outcome.avoids_mapM ?_) fun items _ => .ok _
      intro item member
      refine Outcome.Avoids.map ?_ _
      unfold nestedFromJson
      cases resolved : pool.lookupMessage ".google.protobuf.Value" with
      | none => exact .ok _
      | some sub => exact items known sub resolved item member left enough
    | _ => exact leaf_noLimit libs known (by decide)

/-- An object nests the struct that a `Value` is, or the entries that a `Struct` has. -/
private theorem object_noLimit (inside : deeper ≤ opts.maxDepth)
    (enough : opts.maxDepth < deeper + levels) {obj : List (String × Json)}
    (plain : wellKnown? pool desc = none → ∀ left, opts.maxDepth < deeper + 1 + left → ∀ field,
      field ∈ desc.field → ∀ jv, memberOf opts obj field = some jv →
        (jsonToField libs pool opts (jsonToMessageImpl libs pool opts left) field jv deeper).Avoids
          IsLimit)
    (struct : wellKnown? pool desc = some .value → ∀ sub,
      pool.lookupMessage ".google.protobuf.Struct" = some sub → ∀ left,
      opts.maxDepth < deeper + 1 + left →
        (jsonToMessageImpl libs pool opts left (deeper + 1) sub (.object obj)).Avoids IsLimit)
    (entries : wellKnown? pool desc = some .struct → ∀ sub,
      pool.lookupMessage ".google.protobuf.Value" = some sub → ∀ entry ∈ obj, ∀ left,
      opts.maxDepth < deeper + 1 + left →
        (jsonToMessageImpl libs pool opts left (deeper + 1) sub entry.2).Avoids IsLimit)
    (carried : wellKnown? pool desc = some .any → ∀ typeUrl sub,
      SortedMap.get? obj "@type" = some (.string typeUrl) → anyType pool typeUrl = some sub →
        ∀ left, opts.maxDepth < deeper + 1 + left →
          (jsonToMessageImpl libs pool opts left (deeper + 1) sub
            (.object (SortedMap.erase obj "@type"))).Avoids IsLimit) :
    (jsonToMessageImpl libs pool opts levels deeper desc (.object obj)).Avoids IsLimit := by
  refine impl_noLimit libs inside enough ?_
  intro left enough
  cases known : wellKnown? pool desc with
  | none =>
    unfold parseBody wellKnownFromJson
    simp only [known, Outcome.ok_bind]
    refine Outcome.Avoids.bind (Outcome.avoids_foldlM ?_ _) ?_
    · intro msg field member
      unfold jsonToFieldStep
      split
      · exact .ok _
      · exact .ok _
      · rename_i jv _ here
        exact (plain known left enough field member jv here).bind fun value _ => .ok _
    · intro msg _
      split
      · split
        · exact .ok _
        · exact .err unknown_noLimit
      · exact .ok _
  | some form =>
    cases form with
    | listValue =>
      refine body_noLimit libs _ (by rw [wellKnownFromJson, known]) ?_
      exact .err mismatch_noLimit
    | value =>
      refine body_noLimit libs _ (by rw [wellKnownFromJson, known]) ?_
      refine Outcome.Avoids.bind ?_ fun inner _ => .ok _
      refine (Outcome.Avoids.ofOption unresolved_noLimit _).bind ?_
      intro sub resolved
      exact struct known sub (Outcome.ofOption_eq_ok.mp resolved) left enough
    | struct =>
      refine body_noLimit libs _ (by rw [wellKnownFromJson, known]) ?_
      refine Outcome.Avoids.bind (Outcome.avoids_mapM ?_) fun items _ => .ok _
      intro entry member
      refine Outcome.Avoids.bind ?_ fun value _ => .ok _
      unfold nestedFromJson
      cases resolved : pool.lookupMessage ".google.protobuf.Value" with
      | none => exact .ok _
      | some sub => exact entries known sub resolved entry member left enough
    | any =>
      refine body_noLimit libs _ (by rw [wellKnownFromJson, known]) ?_
      unfold anyFromJson
      simp only
      split
      · rename_i typeUrl typed
        split
        · rename_i sub found
          refine (carried known typeUrl sub typed found left enough).bind fun inner _ => ?_
          refine Outcome.Avoids.bind ?_ fun bytes _ => .ok _
          exact .mapErr (fun _ => wellKnown_noLimit) _
        · split
          · exact (Outcome.Avoids.ofOption wellKnown_noLimit _).bind fun bytes _ => .ok _
          · exact .ok _
      · exact .err wellKnown_noLimit
    | _ => exact leaf_noLimit libs known (by decide)

end Shapes

section Texts

variable (libs : Libraries) {pool : DescriptorPool} {opts : JsonOptions} {desc : DescriptorProto}
  {json : Json} {msg : DynamicMessage} {depth : Nat}
  {print : Nat → DescriptorProto → DynamicMessage → JsonResult Json}

/-- A struct is printed as an object of its entries. -/
private theorem structToJson_object (printed : structToJson pool print depth msg = .ok json) :
    ∃ obj, json = .object obj ∧ SortedMap.Sorted obj ∧ ∀ entry ∈ obj, ∃ entries value,
      msg.getField 1 = some (.map entries) ∧ (.scalar (.string entry.1), value) ∈ entries ∧
        nestedToJson pool print depth value = .ok entry.2 := by
  unfold structToJson at printed
  split at printed
  · rename_i entries held
    obtain ⟨obj, folded, rfl⟩ := Outcome.map_eq_ok.mp printed
    rw [structEntries_eq] at folded
    have members : SortedMap.Sorted obj ∧ ∀ entry ∈ obj, ∃ value,
        (.scalar (.string entry.1), value) ∈ entries ∧
          nestedToJson pool print depth value = .ok entry.2 := by
      refine SortedMap.foldlM_inserts (fun key inner => ∃ value, (.scalar (.string key), value) ∈
        entries ∧ nestedToJson pool print depth value = .ok inner) ?_ SortedMap.sorted_nil nofun folded
      rintro out ⟨key, value⟩ member next moved
      unfold addEntry at moved
      split at moved
      · rename_i text v same
        cases same
        obtain ⟨inner, here, same⟩ := Outcome.bind_eq_ok.mp moved
        cases same
        exact .inr ⟨text, inner, ⟨value, member, here⟩, rfl⟩
      · cases moved
        exact .inl rfl
    refine ⟨obj, rfl, members.1, ?_⟩
    intro entry member
    obtain ⟨value, inside, here⟩ := members.2 entry member
    exact ⟨entries, value, held, inside, here⟩
  · cases printed
    exact ⟨[], rfl, SortedMap.sorted_nil, nofun⟩

/-- A list is printed as an array of its items. -/
private theorem listValueToJson_array (printed : listValueToJson pool print depth msg = .ok json) :
    ∃ arr, json = .array arr ∧ ∀ item ∈ arr, ∃ items value, msg.getField 1 = some (.list items) ∧
      value ∈ items ∧ nestedToJson pool print depth value = .ok item := by
  unfold listValueToJson at printed
  split at printed
  · rename_i items held
    obtain ⟨arr, each, rfl⟩ := Outcome.map_eq_ok.mp printed
    refine ⟨arr, rfl, ?_⟩
    intro item member
    obtain ⟨value, inside, here⟩ := (Outcome.mapM_eq_ok_mem each).2 item member
    exact ⟨items, value, held, inside, here⟩
  · cases printed
    exact ⟨[], rfl, nofun⟩

/-- A value is printed as the struct or list that it holds, else without nesting. -/
private theorem valueToJson_cases (printed : WellKnown.valueToJson pool print depth msg = .ok json) :
    (structuredOf msg = none ∧ (∀ obj, json ≠ .object obj) ∧ ∀ arr, json ≠ .array arr) ∨
      ∃ name inner, structuredOf msg = some (name, inner) ∧
        (name = ".google.protobuf.Struct" ∨ name = ".google.protobuf.ListValue") ∧
          namedToJson pool print depth name inner = .ok json := by
  unfold WellKnown.valueToJson at printed
  unfold structuredOf
  cases isNull : getI64 msg 1 with
  | some x =>
    simp only [isNull] at printed
    cases printed
    exact .inl ⟨rfl, nofun, nofun⟩
  | none =>
    simp only [isNull] at printed
    cases isNumber : getF64 msg 2 with
    | some x =>
      simp only [isNumber] at printed
      obtain ⟨n, _, rfl⟩ := Outcome.map_eq_ok.mp printed
      exact .inl ⟨rfl, nofun, nofun⟩
    | none =>
      simp only [isNumber] at printed
      cases isText : getStr msg 3 with
      | some s =>
        simp only [isText] at printed
        cases printed
        exact .inl ⟨rfl, nofun, nofun⟩
      | none =>
        simp only [isText] at printed
        cases isBool : getBool msg 4 with
        | some b =>
          simp only [isBool] at printed
          cases printed
          exact .inl ⟨rfl, nofun, nofun⟩
        | none =>
          simp only [isBool] at printed
          cases isStruct : getMsg msg 5 with
          | some m =>
            simp only [isStruct] at printed
            exact .inr ⟨_, m, rfl, .inl rfl, printed⟩
          | none =>
            simp only [isStruct] at printed
            cases isList : getMsg msg 6 with
            | some m =>
              simp only [isList] at printed
              exact .inr ⟨_, m, rfl, .inr rfl, printed⟩
            | none =>
              simp only [isList] at printed
              cases printed
              exact .inl ⟨rfl, nofun, nofun⟩

/-- The members of a printed message are its fields. -/
private theorem fieldsToJson_members {fields : List FieldDescriptorProto} {out : List (String × Json)}
    (printed : fieldsToJson libs pool opts print msg depth fields = .ok out) :
    SortedMap.Sorted out ∧ ∀ member ∈ out, ∃ field ∈ fields, field.extendee.isSome = false ∧
      fieldJsonName field opts = member.1 ∧
        fieldToJson libs pool opts print field (msg.getField (field.number.getD 0)) depth =
          .ok (some member.2) := by
  refine SortedMap.foldlM_inserts (fun name json => ∃ field ∈ fields,
    field.extendee.isSome = false ∧ fieldJsonName field opts = name ∧
      fieldToJson libs pool opts print field (msg.getField (field.number.getD 0)) depth =
        .ok (some json)) ?_ SortedMap.sorted_nil nofun printed
  intro state field inside next moved
  split at moved
  · cases moved
    exact .inl rfl
  · rename_i own
    obtain ⟨added, here, moved⟩ := Outcome.bind_eq_ok.mp moved
    cases added with
    | none =>
      cases moved
      exact .inl rfl
    | some json =>
      cases moved
      exact .inr ⟨_, json, ⟨field, inside, by simpa using own, rfl, here⟩, rfl⟩

/-- The members of a printed map are its entries. -/
private theorem mapToJson_members {kf vf : FieldDescriptorProto} {entries : List (Value × Value)}
    {obj : List (String × Json)}
    (printed : mapToJson libs pool opts print kf vf depth entries = .ok obj) :
    ∀ member ∈ obj, ∃ entry ∈ entries,
      valueToJson libs pool opts print vf entry.2 (depth + 1) = .ok member.2 := by
  refine (SortedMap.foldlM_inserts (fun _ json => ∃ entry ∈ entries,
    valueToJson libs pool opts print vf entry.2 (depth + 1) = .ok json) ?_ SortedMap.sorted_nil nofun
      printed).2
  intro state entry inside next moved
  obtain ⟨key, _, moved⟩ := Outcome.bind_eq_ok.mp moved
  obtain ⟨json, here, moved⟩ := Outcome.bind_eq_ok.mp moved
  cases moved
  exact .inr ⟨key, json, ⟨entry, inside, here⟩, rfl⟩

/-- What is printed is printed by the body, with less fuel. -/
private theorem impl_printed {fuel : Nat}
    (printed : messageToJsonImpl libs pool opts fuel depth desc msg = .ok json) :
    ∃ left, fuel = left + 1 ∧
      messageBody libs pool opts (messageToJsonImpl libs pool opts left) depth desc msg = .ok json := by
  cases fuel with
  | zero => cases printed
  | succ left =>
    unfold messageToJsonImpl at printed
    split at printed
    · cases printed
    · exact ⟨left, rfl, printed⟩

/-- The text of a special form is that of the form. -/
private theorem body_printed (x : JsonResult Json)
    (printed : messageBody libs pool opts print depth desc msg = .ok json)
    (form : wellKnownToJson libs pool print depth desc msg = x.map some) : x = .ok json := by
  unfold messageBody at printed
  rw [form] at printed
  cases x with
  | ok text =>
    cases printed
    rfl
  | err | panic | outOfFuel => cases printed

private theorem struct_printed {fuel : Nat} (known : wellKnown? pool desc = some .struct)
    (printed : messageToJsonImpl libs pool opts fuel depth desc msg = .ok json) :
    ∃ obj, json = .object obj ∧ SortedMap.Sorted obj ∧ ∀ entry ∈ obj, ∃ entries value,
      msg.getField 1 = some (.map entries) ∧ (.scalar (.string entry.1), value) ∈ entries := by
  obtain ⟨left, rfl, body⟩ := impl_printed libs printed
  obtain ⟨obj, rfl, sorted, members⟩ := structToJson_object
    (body_printed libs _ body (by rw [wellKnownToJson, known]))
  refine ⟨obj, rfl, sorted, ?_⟩
  intro entry member
  obtain ⟨entries, value, held, inside, _⟩ := members entry member
  exact ⟨entries, value, held, inside⟩

private theorem listValue_printed {fuel : Nat} (known : wellKnown? pool desc = some .listValue)
    (printed : messageToJsonImpl libs pool opts fuel depth desc msg = .ok json) :
    ∃ arr, json = .array arr := by
  obtain ⟨left, rfl, body⟩ := impl_printed libs printed
  obtain ⟨arr, same, _⟩ := listValueToJson_array
    (body_printed libs _ body (by rw [wellKnownToJson, known]))
  exact ⟨arr, same⟩

/-- A wrapper is printed as a scalar. -/
private theorem wrapperToJson_noObject {obj : List (String × Json)} :
    wrapperToJson libs desc msg ≠ .ok (.object obj) := by
  intro printed
  unfold wrapperToJson at printed
  split at printed
  · cases printed
  · unfold scalarJson at printed
    split at printed <;> first
      | cases printed
      | exact nomatch (Outcome.map_eq_ok.mp printed).choose_spec.2
  · cases printed

/-- The members of a printed object, unless it is that of an `Any`. -/
private theorem printed_names (structured : Structured pool) {fuel : Nat}
    {obj : List (String × Json)} (noAny : wellKnown? pool desc ≠ some .any)
    (printed : messageToJsonImpl libs pool opts fuel depth desc msg = .ok (.object obj)) :
    SortedMap.Sorted obj ∧ ∀ entry ∈ obj, entry.1 ∈ memberNames pool opts desc msg := by
  have keys {held : DynamicMessage} {out : List (String × Json)}
      (origin : ∀ entry ∈ out, ∃ entries value, held.getField 1 = some (.map entries) ∧
        (.scalar (.string entry.1), value) ∈ entries) :
      ∀ entry ∈ out, entry.1 ∈ structKeys held := by
    intro entry member
    obtain ⟨entries, value, here, inside⟩ := origin entry member
    unfold structKeys
    rw [here]
    exact List.mem_filterMap.mpr ⟨_, inside, rfl⟩
  have whole := printed
  obtain ⟨left, rfl, body⟩ := impl_printed libs printed
  unfold memberNames
  cases known : wellKnown? pool desc with
  | none =>
    rw [messageBody_plain libs known] at body
    obtain ⟨out, folded, same⟩ := Outcome.map_eq_ok.mp body
    cases same
    obtain ⟨sorted, members⟩ := fieldsToJson_members libs folded
    refine ⟨sorted, ?_⟩
    intro entry member
    obtain ⟨field, inside, own, named, _⟩ := members entry member
    refine List.mem_map.mpr ⟨field, List.mem_filter.mpr ⟨inside, ?_⟩, named⟩
    rw [own]
    rfl
  | some form =>
    cases form with
    | struct =>
      obtain ⟨out, same, sorted, origin⟩ := struct_printed libs known whole
      cases same
      exact ⟨sorted, keys origin⟩
    | value =>
      have form := body_printed libs _ body (by rw [wellKnownToJson, known])
      rcases valueToJson_cases form with ⟨_, noObject, _⟩ | ⟨name, inner, holds, named, nested⟩
      · exact (noObject obj rfl).elim
      · obtain ⟨sub, resolved, inside⟩ := Outcome.bind_eq_ok.mp nested
        replace resolved := Outcome.ofOption_eq_ok.mp resolved
        simp only [holds]
        rcases named with rfl | rfl
        · obtain ⟨out, same, sorted, origin⟩ :=
            struct_printed libs (structured.struct sub resolved) inside
          cases same
          exact ⟨sorted, keys origin⟩
        · obtain ⟨arr, same⟩ := listValue_printed libs (structured.listValue sub resolved) inside
          cases same
    | listValue =>
      obtain ⟨arr, same⟩ := listValue_printed libs known whole
      cases same
    | any => exact (noAny known).elim
    | empty =>
      have form := body_printed libs (.ok (.object [])) body (by rw [wellKnownToJson, known]; rfl)
      cases form
      refine ⟨SortedMap.sorted_nil, ?_⟩
      rintro entry ⟨⟩
    | timestamp =>
      have form := body_printed libs _ body (by rw [wellKnownToJson, known])
      obtain ⟨base, _, same⟩ := Outcome.bind_eq_ok.mp form
      cases same
    | duration =>
      have form := body_printed libs (.ok (durationToJson msg)) body
        (by rw [wellKnownToJson, known]; rfl)
      cases form
    | fieldMask =>
      have form := body_printed libs (.ok (fieldMaskToJson msg)) body
        (by rw [wellKnownToJson, known]; rfl)
      unfold fieldMaskToJson at form
      split at form <;> cases form
    | wrapper =>
      have form := body_printed libs _ body (by rw [wellKnownToJson, known])
      exact (wrapperToJson_noObject libs form).elim

/-- The entries of another object over the name of a type. -/
def overType (typeUrl : String) (entries : List (String × Json)) : List (String × Json) :=
  entries.foldl (fun out entry => SortedMap.insert out entry.1 entry.2)
    [("@type", Json.string typeUrl)]

private theorem sorted_type (typeUrl : String) :
    SortedMap.Sorted [("@type", Json.string typeUrl)] :=
  List.pairwise_singleton _ _

theorem get?_overType {typeUrl : String} {entries : List (String × Json)}
    (sorted : SortedMap.Sorted entries) (key : String) :
    SortedMap.get? (overType typeUrl entries) key =
      (SortedMap.get? entries key).or (if "@type" = key then some (.string typeUrl) else none) := by
  rw [overType, SortedMap.get?_foldl_insert sorted (sorted_type typeUrl)]
  rfl

/-- Without the name of the type, the entries remain. -/
theorem erase_overType {typeUrl : String} {entries : List (String × Json)}
    (sorted : SortedMap.Sorted entries) (free : ∀ entry ∈ entries, entry.1 ≠ "@type") :
    SortedMap.erase (overType typeUrl entries) "@type" = entries := by
  refine SortedMap.ext_get? ((SortedMap.foldl_insert_sorted (sorted_type typeUrl)).erase _) sorted ?_
  intro key
  rw [SortedMap.get?_erase, get?_overType sorted]
  split
  · rename_i same
    subst same
    exact (SortedMap.get?_eq_none_iff.mpr free).symm
  · rename_i other
    rw [if_neg (Ne.symm other), Option.or_none]

/-- Entries that have the name of a type themselves stay as they are. -/
theorem overType_eq {typeUrl : String} {entries : List (String × Json)}
    (sorted : SortedMap.Sorted entries) (typed : (SortedMap.get? entries "@type").isSome = true) :
    overType typeUrl entries = entries := by
  refine SortedMap.ext_get? (SortedMap.foldl_insert_sorted (sorted_type typeUrl)) sorted ?_
  intro key
  rw [get?_overType sorted]
  split
  · rename_i same
    subst same
    obtain ⟨found, here⟩ := Option.isSome_iff_exists.mp typed
    rw [here]
    rfl
  · rw [Option.or_none]

/-- What is printed for an `Any`: its bytes, or the members of the message that it carries. -/
private theorem anyToJson_cases (printed : anyToJson libs pool print depth msg = .ok json) :
    (anyType pool ((getStr msg 1).getD "") = none ∧ ∃ text,
      json = .object (SortedMap.insert [("@type", .string ((getStr msg 1).getD ""))] "value" text)) ∨
    ∃ sub inner text, Carries pool msg sub inner ∧ print (depth + 1) sub inner = .ok text ∧
      ((∃ entries, text = .object entries ∧
        json = .object (overType ((getStr msg 1).getD "") entries)) ∨
      (∀ entries, text ≠ .object entries) ∧
        json = .object [("@type", .string ((getStr msg 1).getD ""))]) := by
  unfold anyToJson at printed
  simp only at printed
  split at printed
  · rename_i sub found
    obtain ⟨inner, decoded, printed⟩ := Outcome.bind_eq_ok.mp printed
    obtain ⟨text, nested, printed⟩ := Outcome.bind_eq_ok.mp printed
    refine .inr ⟨sub, inner, text, ⟨found, Outcome.mapErr_eq_ok.mp decoded⟩, nested, ?_⟩
    cases text with
    | object entries =>
      cases printed
      exact .inl ⟨entries, rfl, rfl⟩
    | null | bool | number | string | array =>
      cases printed
      refine .inr ⟨?_, rfl⟩
      rintro entries ⟨⟩
  · rename_i absent
    cases printed
    exact .inl ⟨absent, _, rfl⟩

/-- An `Any` is printed as an object with the name of a type. -/
private theorem any_printed {fuel : Nat} (structured : Structured pool)
    (known : wellKnown? pool desc = some .any)
    (printed : messageToJsonImpl libs pool opts fuel depth desc msg = .ok json) :
    ∃ obj, json = .object obj ∧ SortedMap.Sorted obj ∧
      (SortedMap.get? obj "@type").isSome = true := by
  induction fuel generalizing depth desc msg json with
  | zero => cases printed
  | succ fuel inductionHypothesis =>
    obtain ⟨left, same, body⟩ := impl_printed libs printed
    cases same
    have form := body_printed libs _ body (by rw [wellKnownToJson, known])
    rcases anyToJson_cases libs form with
      ⟨_, text, rfl⟩ | ⟨sub, inner, text, carries, nested, ⟨entries, rfl, rfl⟩ | ⟨_, rfl⟩⟩
    · refine ⟨_, rfl, (sorted_type _).insert _ _, ?_⟩
      rw [SortedMap.get?_insert (sorted_type _), if_neg (by decide)]
      rfl
    · have sorted : SortedMap.Sorted entries := by
        by_cases isAny : wellKnown? pool sub = some .any
        · obtain ⟨obj, same, sorted, _⟩ := inductionHypothesis isAny nested
          cases same
          exact sorted
        · exact (printed_names libs structured isAny nested).1
      refine ⟨_, rfl, SortedMap.foldl_insert_sorted (sorted_type _), ?_⟩
      rw [get?_overType sorted]
      cases SortedMap.get? entries "@type" <;> rfl
    · exact ⟨_, rfl, sorted_type _, rfl⟩

end Texts

section Values

variable (libs : Libraries) {pool : DescriptorPool} {opts : JsonOptions}

/-- One descriptor, or two with the same special form. -/
def Alike (pool : DescriptorPool) (desc other : DescriptorProto) : Prop :=
  desc = other ∨ ∃ form, wellKnown? pool desc = some form ∧ wellKnown? pool other = some form

theorem Alike.wellKnown {desc other : DescriptorProto} (alike : Alike pool desc other) :
    wellKnown? pool other = wellKnown? pool desc := by
  rcases alike with rfl | ⟨form, known, known'⟩
  · rfl
  · rw [known, known']

/-- Text that is printed with less fuel is read without exceeding the limit. -/
def Rereads (libs : Libraries) (pool : DescriptorPool) (opts : JsonOptions) (fuel : Nat) : Prop :=
  ∀ depth desc msg json, messageToJsonImpl libs pool opts fuel depth desc msg = .ok json →
    ∀ other deeper levels, Alike pool desc other →
      Everywhere (ReadsIn pool) (Legible pool opts) (desc, some msg) →
      Within (ReadsIn pool) opts.maxDepth (desc, some msg) deeper →
      opts.maxDepth < deeper + levels →
        (jsonToMessageImpl libs pool opts levels deeper other json).Avoids IsLimit

variable {field : FieldDescriptorProto} {jv : Json} {value : Value}
  {recurse : Nat → DescriptorProto → Json → JsonResult DynamicMessage}
  {fuel depth deeper levels : Nat}

/-- Nothing is nested in a value of another type than a message. -/
private theorem scalar_noLimit (noMessage : ¬ IsMessage (typeOf field)) :
    (jsonToValue libs pool opts recurse field jv deeper).Avoids IsLimit := by
  unfold jsonToValue
  simp only
  split
  · rename_i isMessage
    exact (noMessage (.inl isMessage)).elim
  · rename_i isGroup
    exact (noMessage (.inr isGroup)).elim
  · exact jsonToEnum_noLimit field jv
  · split
    · refine (Outcome.avoids_mapM ?_).map _
      intro item _
      exact (jsonToScalar_noLimit libs opts _ item _).map _
    · exact (jsonToScalar_noLimit libs opts _ jv _).map _

/-- A single value of a message type is a message. -/
private theorem message_printed {print : Nat → DescriptorProto → DynamicMessage → JsonResult Json}
    {t : FieldType} (isMessage : IsMessage t)
    (printed : scalarOrComplexToJson libs pool opts print field t value depth = .ok jv) :
    ∃ msg sub, value = .message msg ∧
      pool.lookupMessage (field.typeName.getD "") = some sub ∧ print (depth + 1) sub msg = .ok jv := by
  have body : (match value with
      | .message dm => do
        let sub ← Outcome.ofOption (.unresolvedType (field.typeName.getD ""))
          (pool.lookupMessage (field.typeName.getD ""))
        print (depth + 1) sub dm
      | _ => .err (.typeMismatch (field.name.getD "") "expected message")) = Outcome.ok jv := by
    unfold scalarOrComplexToJson at printed
    rcases isMessage with rfl | rfl <;> exact printed
  cases value with
  | message msg =>
    obtain ⟨sub, resolved, printed⟩ := Outcome.bind_eq_ok.mp body
    exact ⟨msg, sub, rfl, Outcome.ofOption_eq_ok.mp resolved, printed⟩
  | scalar | enum | list | map => cases body

/-- What the array of a list of messages is read as. -/
private theorem list_noLimit (structured : Structured pool) (rereads : Rereads libs pool opts fuel)
    {items : List Value} {sub : DescriptorProto} (holds : HoldsType pool field sub)
    (legible : ∀ below inner, FieldReads pool field (.list items) below inner →
      Everywhere (ReadsIn pool) (Legible pool opts) inner)
    (within : ∀ below inner, FieldReads pool field (.list items) below inner →
      Within (ReadsIn pool) opts.maxDepth inner (deeper + below))
    {jsons : List Json}
    (each : ∀ item ∈ jsons, ∃ msg, .message msg ∈ items ∧
      messageToJsonImpl libs pool opts fuel (depth + 2) sub msg = .ok item)
    (enough : opts.maxDepth < deeper + 2 + levels) :
    (jsonToMessageImpl libs pool opts levels (deeper + 2) sub (.array jsons)).Avoids IsLimit := by
  have again {other : DescriptorProto} (alike : Alike pool sub other)
      (known : wellKnown? pool sub = some .value ∨ wellKnown? pool sub = some .listValue)
      {item : Json} (member : item ∈ jsons) {left : Nat} (enough : opts.maxDepth < deeper + 4 + left) :
      (jsonToMessageImpl libs pool opts left (deeper + 4) other item).Avoids IsLimit := by
    obtain ⟨msg, inside, printed⟩ := each item member
    exact rereads _ _ _ _ printed _ _ _ alike (legible _ _ (.item holds known inside))
      (within _ _ (.item holds known inside)) enough
  refine array_noLimit libs (within _ _ (.list holds)).here enough ?_ ?_
  · intro isValue list resolved left enough
    have isList := structured.listValue list resolved
    refine array_noLimit libs (within _ _ (.values holds isValue resolved)).here enough ?_ ?_
    · intro known
      rw [isList] at known
      cases known
    · intro _ inner resolved item member left enough
      exact again (.inr ⟨.value, isValue, structured.value inner resolved⟩) (.inl isValue) member enough
  · intro isList inner resolved item member left enough
    have isValue := structured.value inner resolved
    obtain ⟨msg, inside, printed⟩ := each item member
    have here := (within _ _ (.item holds (.inr isList) inside)).here
    obtain ⟨arr, rfl⟩ := listValue_printed libs isList printed
    refine array_noLimit libs (by omega) enough ?_ ?_
    · intro _ list resolved left enough
      exact again (.inr ⟨.listValue, isList, structured.listValue list resolved⟩) (.inr isList) member
        enough
    · intro known
      rw [isValue] at known
      cases known

/-- What is printed for the value of a field, or of a map entry. -/
private theorem value_noLimit (structured : Structured pool) (rereads : Rereads libs pool opts fuel)
    (printed : valueToJson libs pool opts (messageToJsonImpl libs pool opts fuel) field value depth =
      .ok jv)
    (legible : ∀ below inner, FieldReads pool field value below inner →
      Everywhere (ReadsIn pool) (Legible pool opts) inner)
    (within : ∀ below inner, FieldReads pool field value below inner →
      Within (ReadsIn pool) opts.maxDepth inner (deeper + below))
    (enough : opts.maxDepth < deeper + 2 + levels) :
    (jsonToValue libs pool opts (jsonToMessageImpl libs pool opts levels) field jv
      (deeper + 1)).Avoids IsLimit := by
  by_cases isMessage : IsMessage (typeOf field)
  · have body : jsonToValue libs pool opts (jsonToMessageImpl libs pool opts levels) field jv
        (deeper + 1) = (do
          let sub ← Outcome.ofOption (.unresolvedType (field.typeName.getD ""))
            (pool.lookupMessage (field.typeName.getD ""))
          let dm ← jsonToMessageImpl libs pool opts levels (deeper + 2) sub jv
          .ok (.message dm)) := by
      unfold jsonToValue
      rcases isMessage with same | same <;> rw [same]
    rw [body]
    refine (Outcome.Avoids.ofOption unresolved_noLimit _).bind fun sub resolved => ?_
    refine Outcome.Avoids.bind ?_ fun dm _ => .ok _
    have holds : HoldsType pool field sub := ⟨isMessage, Outcome.ofOption_eq_ok.mp resolved⟩
    unfold valueToJson at printed
    split at printed
    · rename_i items
      obtain ⟨jsons, each, rfl⟩ := Outcome.map_eq_ok.mp printed
      have made : ∀ item ∈ jsons, ∃ msg, .message msg ∈ items ∧
          messageToJsonImpl libs pool opts fuel (depth + 2) sub msg = .ok item := by
        intro item member
        obtain ⟨it, inside, here⟩ := (Outcome.mapM_eq_ok_mem each).2 item member
        obtain ⟨msg, sub', rfl, resolved', here⟩ := message_printed libs isMessage here
        cases holds.resolved.symm.trans resolved'
        exact ⟨msg, inside, here⟩
      exact list_noLimit libs structured rereads holds legible within made enough
    · obtain ⟨msg, sub', rfl, resolved', here⟩ := message_printed libs isMessage printed
      cases holds.resolved.symm.trans resolved'
      exact rereads _ _ _ _ here _ _ _ (.inl rfl) (legible _ _ (.message holds))
        (within _ _ (.message holds)) enough
  · exact scalar_noLimit libs isMessage

/-- What is printed for a field of a message without a special form. -/
private theorem field_noLimit (structured : Structured pool) (rereads : Rereads libs pool opts fuel)
    {desc : DescriptorProto} {msg : DynamicMessage}
    (printed : fieldToJson libs pool opts (messageToJsonImpl libs pool opts fuel) field
      (msg.getField (field.number.getD 0)) depth = .ok (some jv))
    (plain : wellKnown? pool desc = none) (inside : field ∈ desc.field)
    (own : field.extendee.isSome = false)
    (legible : Everywhere (ReadsIn pool) (Legible pool opts) (desc, some msg))
    (within : Within (ReadsIn pool) opts.maxDepth (desc, some msg) deeper)
    (enough : opts.maxDepth < deeper + 2 + levels) :
    (jsonToField libs pool opts (jsonToMessageImpl libs pool opts levels) field jv deeper).Avoids
      IsLimit := by
  unfold jsonToField
  unfold fieldToJson at printed
  cases isMap : isMapField pool field with
  | true =>
    rw [isMap, if_pos rfl] at printed
    rw [if_pos rfl]
    split
    · exact .err wellKnown_noLimit
    · rename_i kf vf entryFields
      split
      · rename_i obj
        refine (Outcome.avoids_mapM ?_).map _
        intro member inObject
        refine (jsonToMapKey_noLimit kf member.1).bind fun key _ => ?_
        refine Outcome.Avoids.bind ?_ fun value _ => .ok _
        cases held : msg.getField (field.number.getD 0) with
        | none =>
          rw [held] at printed
          simp only [Outcome.ok.injEq] at printed
          split at printed
          · cases printed
            cases inObject
          · cases printed
        | some stored =>
          simp only [held, entryFields] at printed
          split at printed
          · rename_i entries
            obtain ⟨out, mapped, same⟩ := Outcome.map_eq_ok.mp printed
            cases same
            obtain ⟨entry, inEntries, here⟩ := mapToJson_members libs mapped member inObject
            refine value_noLimit libs structured rereads here ?_ ?_ enough
            · intro below inner reads
              exact legible.opens (.entry plain inside own isMap entryFields held inEntries reads)
            · intro below inner reads
              exact within.opens (.entry plain inside own isMap entryFields held inEntries reads)
          · cases printed
      · exact .err mismatch_noLimit
  | false =>
    rw [isMap, if_neg Bool.false_ne_true] at printed
    rw [if_neg Bool.false_ne_true]
    cases held : msg.getField (field.number.getD 0) with
    | none =>
      rw [held] at printed
      refine scalar_noLimit libs ?_
      intro isMessage
      simp only [Outcome.ok.injEq] at printed
      split at printed
      · unfold defaultJsonValue at printed
        rcases isMessage with same | same <;> rw [same] at printed <;> cases printed
      · cases printed
    | some stored =>
      rw [held] at printed
      obtain ⟨text, here, same⟩ := Outcome.map_eq_ok.mp printed
      cases same
      refine value_noLimit libs structured rereads here ?_ ?_ enough
      · intro below inner reads
        exact legible.opens (.field plain inside own isMap held reads)
      · intro below inner reads
        exact within.opens (.field plain inside own isMap held reads)

/-- A `Value` in a struct or a list. -/
private theorem nested_noLimit (rereads : Rereads libs pool opts fuel) {sub : DescriptorProto}
    {item : Json} (resolved : pool.lookupMessage ".google.protobuf.Value" = some sub)
    (printed : nestedToJson pool (messageToJsonImpl libs pool opts fuel) depth value = .ok item)
    (legible : Everywhere (ReadsIn pool) (Legible pool opts) (sub, messageOf value))
    (within : Within (ReadsIn pool) opts.maxDepth (sub, messageOf value) deeper)
    (enough : opts.maxDepth < deeper + levels) :
    (jsonToMessageImpl libs pool opts levels deeper sub item).Avoids IsLimit := by
  unfold nestedToJson at printed
  rw [resolved] at printed
  cases value with
  | message msg => exact rereads _ _ _ _ printed _ _ _ (.inl rfl) legible within enough
  | scalar | enum | list | map =>
    cases printed
    exact null_noLimit libs within.here enough

end Values

section Run

variable (libs : Libraries) {pool : DescriptorPool} {opts : JsonOptions} {fuel levels deeper : Nat}

/-- Only a `Value` nests something in an empty object: an empty struct. -/
private theorem empty_noLimit (structured : Structured pool) {desc : DescriptorProto}
    (inside : deeper ≤ opts.maxDepth) (enough : opts.maxDepth < deeper + levels)
    (value : wellKnown? pool desc = some .value → ∀ sub,
      pool.lookupMessage ".google.protobuf.Struct" = some sub → deeper + 1 ≤ opts.maxDepth) :
    (jsonToMessageImpl libs pool opts levels deeper desc (.object [])).Avoids IsLimit := by
  have absent (field : FieldDescriptorProto) (jv : Json) : memberOf opts [] field ≠ some jv := by
    unfold memberOf
    split <;> rintro ⟨⟩
  refine object_noLimit libs inside enough ?_ ?_ ?_ ?_
  · intro _ left _ field _ jv here
    exact (absent field jv here).elim
  · intro known sub resolved left enough
    have isStruct := structured.struct sub resolved
    refine object_noLimit libs (value known sub resolved) enough ?_ ?_ ?_ ?_
    · intro _ left _ field _ jv here
      exact (absent field jv here).elim
    · intro known
      rw [isStruct] at known
      cases known
    · rintro _ _ _ _ ⟨⟩
    · rintro _ _ _ ⟨⟩
  · rintro _ _ _ _ ⟨⟩
  · rintro _ _ _ ⟨⟩

/-- What is printed for an `Any` without another one in it. -/
private theorem any_noLimit (structured : Structured pool) (rereads : Rereads libs pool opts fuel)
    {desc other : DescriptorProto} {msg : DynamicMessage} {json : Json} {depth : Nat}
    (known : wellKnown? pool desc = some .any) (alike : wellKnown? pool other = some .any)
    (printed : anyToJson libs pool (messageToJsonImpl libs pool opts fuel) depth msg = .ok json)
    (apart : ∀ sub inner, Carries pool msg sub inner → wellKnown? pool sub ≠ some .any)
    (legible : Everywhere (ReadsIn pool) (Legible pool opts) (desc, some msg))
    (within : Within (ReadsIn pool) opts.maxDepth (desc, some msg) deeper)
    (enough : opts.maxDepth < deeper + levels) :
    (jsonToMessageImpl libs pool opts levels deeper other json).Avoids IsLimit := by
  have only {obj : List (String × Json)} (carried : ∀ typeUrl sub,
      SortedMap.get? obj "@type" = some (.string typeUrl) → anyType pool typeUrl = some sub →
        ∀ left, opts.maxDepth < deeper + 1 + left →
          (jsonToMessageImpl libs pool opts left (deeper + 1) sub
            (.object (SortedMap.erase obj "@type"))).Avoids IsLimit) :
      (jsonToMessageImpl libs pool opts levels deeper other (.object obj)).Avoids IsLimit := by
    refine object_noLimit libs within.here enough ?_ ?_ ?_ fun _ => carried
    all_goals
      intro plain
      rw [alike] at plain
      cases plain
  rcases anyToJson_cases libs printed with
    ⟨absent, text, rfl⟩ | ⟨sub, inner, text, carries, nested, ⟨entries, rfl, rfl⟩ | ⟨noObject, rfl⟩⟩
  · refine only ?_
    intro typeUrl sub typed found
    rw [SortedMap.get?_insert (sorted_type _), if_neg (by decide)] at typed
    cases typed
    rw [absent] at found
    cases found
  · have noAny := apart sub inner carries
    obtain ⟨sorted, named⟩ := printed_names libs structured noAny nested
    have free : ∀ entry ∈ entries, entry.1 ≠ "@type" := by
      intro entry member same
      exact legible.here.tagged known msg sub inner rfl carries (same ▸ named entry member)
    refine only ?_
    intro typeUrl sub' typed found left enough
    rw [get?_overType sorted, SortedMap.get?_eq_none_iff.mpr free] at typed
    cases typed
    cases carries.typed.symm.trans found
    rw [erase_overType sorted free]
    exact rereads _ _ _ _ nested _ _ _ (.inl rfl) (legible.opens (.any known carries noAny))
      (within.opens (.any known carries noAny)) enough
  · have noAny := apart sub inner carries
    refine only ?_
    intro typeUrl sub' typed found left enough
    cases typed
    cases carries.typed.symm.trans found
    refine empty_noLimit libs structured (within.opens (.any known carries noAny)).here enough ?_
    intro isValue struct resolved
    exact (within.opens (.emptied known carries isValue resolved)).here

/-- What is printed is read again without exceeding the limit, if all that is read lies within. -/
theorem rereads_all (structured : Structured pool) (fuel : Nat) : Rereads libs pool opts fuel := by
  induction fuel with
  | zero =>
    intro depth desc msg json printed
    cases printed
  | succ fuel inductionHypothesis =>
    intro depth desc msg json printed other deeper levels alike legible within enough
    obtain ⟨left, same, body⟩ := impl_printed libs printed
    cases same
    have sameForm := alike.wellKnown
    cases known : wellKnown? pool desc with
    | none =>
      obtain rfl : desc = other := by
        rcases alike with same | ⟨form, here, _⟩
        · exact same
        · rw [known] at here
          cases here
      rw [messageBody_plain libs known] at body
      obtain ⟨out, folded, rfl⟩ := Outcome.map_eq_ok.mp body
      obtain ⟨_, members⟩ := fieldsToJson_members libs folded
      refine object_noLimit libs within.here enough ?_ ?_ ?_ ?_
      · intro _ left enough field inside jv here
        unfold memberOf at here
        split at here
        · cases here
        · rename_i own
          replace own : field.extendee.isSome = false := by simpa using own
          obtain ⟨other, inside', own', named, printed⟩ := members _ (SortedMap.mem_of_get? here)
          obtain rfl := legible.here.apart known other inside' field inside own' own named
          exact field_noLimit libs structured inductionHypothesis printed known inside own legible
            within (by omega)
      all_goals
        intro special
        rw [known] at special
        cases special
    | some form =>
      rw [known] at sameForm
      have special (none : wellKnown? pool other = none) : False := by
        rw [sameForm] at none
        cases none
      cases form with
      | struct =>
        have form := body_printed libs _ body (by rw [wellKnownToJson, known])
        obtain ⟨obj, rfl, _, members⟩ := structToJson_object form
        refine object_noLimit libs within.here enough (fun none => (special none).elim) ?_ ?_ ?_
        · intro isValue
          rw [sameForm] at isValue
          cases isValue
        · intro _ sub resolved entry member left enough
          obtain ⟨entries, value, held, inside, here⟩ := members entry member
          exact nested_noLimit libs inductionHypothesis resolved here
            (legible.opens (.struct known resolved held inside))
            (within.opens (.struct known resolved held inside)) enough
        · intro isAny
          rw [sameForm] at isAny
          cases isAny
      | listValue =>
        have form := body_printed libs _ body (by rw [wellKnownToJson, known])
        obtain ⟨arr, rfl, members⟩ := listValueToJson_array form
        refine array_noLimit libs within.here enough ?_ ?_
        · intro isValue
          rw [sameForm] at isValue
          cases isValue
        · intro _ sub resolved item member left enough
          obtain ⟨items, value, held, inside, here⟩ := members item member
          exact nested_noLimit libs inductionHypothesis resolved here
            (legible.opens (.listValue known resolved held inside))
            (within.opens (.listValue known resolved held inside)) enough
      | value =>
        have form := body_printed libs _ body (by rw [wellKnownToJson, known])
        rcases valueToJson_cases form with ⟨_, noObject, noArray⟩ | ⟨name, inner, holds, named, inside⟩
        · refine impl_noLimit libs within.here enough ?_
          intro left _
          refine body_noLimit libs _ (by rw [wellKnownFromJson, sameForm]) ?_
          cases json with
          | object obj => exact (noObject obj rfl).elim
          | array arr => exact (noArray arr rfl).elim
          | null | bool | number | string => exact .ok _
        · obtain ⟨sub, resolved, nested⟩ := Outcome.bind_eq_ok.mp inside
          replace resolved := Outcome.ofOption_eq_ok.mp resolved
          have again (left : Nat) (enough : opts.maxDepth < deeper + 1 + left) :
              (jsonToMessageImpl libs pool opts left (deeper + 1) sub json).Avoids IsLimit :=
            inductionHypothesis _ _ _ _ nested _ _ _ (.inl rfl)
              (legible.opens (.value known holds resolved))
              (within.opens (.value known holds resolved)) enough
          rcases named with rfl | rfl
          · obtain ⟨obj, rfl, _⟩ := struct_printed libs (structured.struct sub resolved) nested
            refine object_noLimit libs within.here enough (fun none => (special none).elim) ?_ ?_ ?_
            · intro _ sub' resolved' left enough
              cases resolved.symm.trans resolved'
              exact again left enough
            · intro isStruct
              rw [sameForm] at isStruct
              cases isStruct
            · intro isAny
              rw [sameForm] at isAny
              cases isAny
          · obtain ⟨arr, rfl⟩ := listValue_printed libs (structured.listValue sub resolved) nested
            refine array_noLimit libs within.here enough ?_ ?_
            · intro _ sub' resolved' left enough
              cases resolved.symm.trans resolved'
              exact again left enough
            · intro isList
              rw [sameForm] at isList
              cases isList
      | any =>
        have form := body_printed libs _ body (by rw [wellKnownToJson, known])
        by_cases again : ∃ sub inner, Carries pool msg sub inner ∧ wellKnown? pool sub = some .any
        · obtain ⟨sub, inner, carries, isAny⟩ := again
          rcases anyToJson_cases libs form with
            ⟨absent, _⟩ | ⟨sub', inner', text, carries', nested, whole⟩
          · rw [carries.typed] at absent
            cases absent
          · cases carries.typed.symm.trans carries'.typed
            cases carries.decoded.symm.trans carries'.decoded
            obtain ⟨entries, rfl, sorted, typed⟩ := any_printed libs structured isAny nested
            rcases whole with ⟨_, same, rfl⟩ | ⟨noObject, _⟩
            · cases same
              rw [overType_eq sorted typed]
              exact inductionHypothesis _ _ _ _ nested _ _ _ (.inr ⟨.any, isAny, sameForm⟩)
                (legible.opens (.anyInAny known carries isAny))
                (within.opens (.anyInAny known carries isAny)) enough
            · exact (noObject entries rfl).elim
        · refine any_noLimit libs structured inductionHypothesis known sameForm form ?_ legible within
            enough
          intro sub inner carries isAny
          exact again ⟨sub, inner, carries, isAny⟩
      | timestamp | duration | fieldMask | empty | wrapper =>
        refine impl_noLimit libs within.here enough ?_
        intro left _
        exact leaf_noLimit libs sameForm (by decide)

end Run

end TptProto.Json
