import Mathlib.Data.UInt
import TptProto.Json.Typed

/-! Wrapper messages to JSON and back. -/

namespace TptProto.Json

open TptProto.Foundation TptProto.Core TptProto.Descriptor TptProto.Reflect

inductive Wrapper where
  | doubleValue
  | floatValue
  | int64Value
  | uint64Value
  | int32Value
  | uint32Value
  | boolValue
  | stringValue
  | bytesValue
  deriving DecidableEq, Repr

namespace Wrapper

def typeName : Wrapper → String
  | doubleValue => "DoubleValue"
  | floatValue => "FloatValue"
  | int64Value => "Int64Value"
  | uint64Value => "UInt64Value"
  | int32Value => "Int32Value"
  | uint32Value => "UInt32Value"
  | boolValue => "BoolValue"
  | stringValue => "StringValue"
  | bytesValue => "BytesValue"

/-- The declared type of the value. -/
def valueType : Wrapper → FieldType
  | doubleValue => .double
  | floatValue => .float
  | int64Value => .int64
  | uint64Value => .uint64
  | int32Value => .int32
  | uint32Value => .uint32
  | boolValue => .bool
  | stringValue => .string
  | bytesValue => .bytes

/-- What an absent value stands for. -/
def defaultValue : Wrapper → ScalarValue
  | doubleValue | floatValue => .f64 0
  | int64Value | int32Value => .i64 0
  | uint64Value | uint32Value => .u64 0
  | boolValue => .bool false
  | stringValue => .string ""
  | bytesValue => .bytes []

variable (wrapper : Wrapper)

/-- The descriptor of the wrapper type in a pool. -/
structure Describes (pool : DescriptorPool) (desc : DescriptorProto) : Prop where
  named : wktName pool desc = some wrapper.typeName
  field : ∃ field, desc.field = [field] ∧ field.number = some 1 ∧
    field.type = some wrapper.valueType ∧ field.label ≠ some .repeated ∧ field.extendee = none ∧
    field.oneofIndex = none

/-- The value, if there is one, is of the declared type. -/
def Wraps (msg : DynamicMessage) : Prop :=
  ∀ value, msg.getField 1 = some value → ∃ s, value = .scalar s ∧ ScalarTyped wrapper.valueType s

/-- The value of a message, which may be the default. -/
def valueOf (msg : DynamicMessage) : Option ScalarValue :=
  match msg.getField 1 with
  | none => some wrapper.defaultValue
  | some (.scalar s) => some s
  | some _ => none

/-- What is printed of a message is read as a wrapper with the same value. -/
def RoundTrips (libs : Libraries) (pool : DescriptorPool) (opts : JsonOptions)
    (desc : DescriptorProto) (msg : DynamicMessage) : Prop :=
  ∃ json back, messageToJson libs pool opts desc msg = .ok json ∧
    jsonToMessage libs pool opts desc json = .ok back ∧ back.descriptor = desc ∧
    wrapper.valueOf back = wrapper.valueOf msg

/-- Its name is not in the list of the wrappers that have a form of their own. -/
def unlisted : Bool := wrapper = .uint64Value || wrapper = .uint32Value

/-- The value is there, and finite if it is floating; those that are not listed need neither, but
integers of 64 bits that are not printed as texts need to be the same behind a cast to a double. -/
def Survives (opts : JsonOptions) (msg : DynamicMessage) : Prop :=
  if wrapper = .uint64Value then
    opts.int64AsString = true ∨ ∀ x, msg.getField 1 = some (.scalar (.u64 x)) →
      Ieee.truncate64 0 (2 ^ 64 - 1) (Ieee.ofNat x.toNat) = x.toNat
  else if wrapper = .uint32Value then True
  else (msg.getField 1).isSome = true ∧
    ∀ x, msg.getField 1 = some (.scalar (.f64 x)) → Ieee.Finite x

end Wrapper

section Listed

variable {libs : Libraries} {pool : DescriptorPool} {opts : JsonOptions} {desc : DescriptorProto}
  {msg : DynamicMessage} {wrapper : Wrapper}

private theorem wellKnown?_described (described : wrapper.Describes pool desc) :
    wellKnown? pool desc = if wrapper.unlisted then none else some WellKnown.wrapper := by
  rw [wellKnown?, described.named, Option.bind_some]
  cases wrapper with
  | _ => rfl

/-- The outermost message is within any limit. -/
private theorem messageToJson_body : messageToJson libs pool opts desc msg =
    messageBody libs pool opts (messageToJsonImpl libs pool opts opts.maxDepth) 0 desc msg := by
  have inside : ¬ 0 > opts.maxDepth := Nat.not_lt_zero _
  simp only [messageToJson, messageToJsonImpl, if_neg inside]

private theorem jsonToMessage_body (json : Json) : jsonToMessage libs pool opts desc json =
    parseBody libs pool opts (jsonToMessageImpl libs pool opts opts.maxDepth) 0 desc json := by
  have inside : ¬ 0 > opts.maxDepth := Nat.not_lt_zero _
  simp only [jsonToMessage, jsonToMessageImpl, if_neg inside]

private theorem messageToJson_listed (known : wellKnown? pool desc = some .wrapper) :
    messageToJson libs pool opts desc msg = wrapperToJson libs desc msg := by
  rw [messageToJson_body, messageBody, wellKnownToJson, known]
  cases wrapperToJson libs desc msg with
  | _ => rfl

private theorem jsonToMessage_listed (known : wellKnown? pool desc = some .wrapper) (json : Json) :
    jsonToMessage libs pool opts desc json = wrapperFromJson libs desc json := by
  rw [jsonToMessage_body]
  unfold parseBody wellKnownFromJson
  rw [known]
  cases wrapperFromJson libs desc json with
  | _ => rfl

private theorem fieldType_described (described : wrapper.Describes pool desc) :
    fieldType desc 1 = some wrapper.valueType := by
  obtain ⟨field, fields, number, type, _⟩ := described.field
  simp [fieldType, DescriptorProto.findFieldByNumber, fields, number, type]

theorem asI64_fromI64 (x : Int64) : (Number.fromI64 x).asI64 = some x := by
  unfold Number.fromI64
  split
  · rfl
  · rename_i nonneg
    have positive : 0 ≤ x.toInt := 
      Int.not_lt.mp fun low => nonneg (Int64.lt_iff_toInt_lt.mpr low)
    have most := Int64.toInt_lt x
    have same : x.toUInt64.toNat = x.toInt.toNat :=
      Int64.toNat_toUInt64_of_le (Int64.le_iff_toInt_le.mpr positive)
    rw [Number.asI64, if_pos (by omega), Int64.toInt64_toUInt64]

/-- A double is written if it is a number. -/
private theorem double_trip {t : FieldType} (floating : t = .double ∨ t = .float) (x : UInt64) :
    (∃ json, scalarJson libs t (.f64 x) = .ok json ∧ wrappedScalar libs t json = .ok (.f64 x)) ↔
      Ieee.Finite x := by
  have written : scalarJson libs t (.f64 x) =
      (Outcome.ofOption (.wellKnown "bad float") (Number.fromF64 x)).map .number := by
    rcases floating with rfl | rfl
    · rfl
    · rfl
  have read (n : Number) : wrappedScalar libs t (.number n) = .ok (.f64 n.asF64) := by
    rcases floating with rfl | rfl
    · rfl
    · rfl
  rw [written]
  unfold Number.fromF64
  by_cases finite : Ieee.Finite x
  · rw [dif_pos finite]
    exact ⟨fun _ => finite, fun _ => ⟨_, rfl, read _⟩⟩
  · rw [dif_neg finite]
    refine ⟨?_, fun isFinite => (finite isFinite).elim⟩
    rintro ⟨_, none, _⟩
    cases none

/-- A set value of a listed wrapper comes back exactly if it is no infinity and no NaN. -/
private theorem scalar_trip {s : ScalarValue} (listed : wrapper.unlisted = false)
    (typed : ScalarTyped wrapper.valueType s)
    (inverse : ∀ bytes, libs.standard.decode (libs.standard.encode bytes) = some bytes) :
    (∃ json, scalarJson libs wrapper.valueType s = .ok json ∧
        wrappedScalar libs wrapper.valueType json = .ok s) ↔
      ∀ x, s = .f64 x → Ieee.Finite x := by
  cases s with
  | f64 x =>
    rw [double_trip typed]
    exact ⟨fun finite _ same => (by cases same; exact finite), fun finite => finite x rfl⟩
  | i64 x =>
    refine iff_of_true ⟨.number (.fromI64 x), ?_⟩ nofun
    have whole : (Number.fromI64 x).asI64.getD 0 = x := by rw [asI64_fromI64, Option.getD_some]
    cases wrapper with
    | int64Value => exact ⟨rfl, congrArg (fun x => Outcome.ok (ScalarValue.i64 x)) whole⟩
    | int32Value => exact ⟨rfl, congrArg (fun x => Outcome.ok (ScalarValue.i64 x)) whole⟩
    | _ => cases typed.1
  | u64 x =>
    cases wrapper with
    | uint64Value => cases listed
    | uint32Value => cases listed
    | _ => cases typed.1
  | bool b =>
    refine iff_of_true ⟨.bool b, ?_⟩ nofun
    rw [show wrapper.valueType = .bool from typed]
    exact ⟨rfl, rfl⟩
  | string text =>
    refine iff_of_true ⟨.string text, ?_⟩ nofun
    rw [show wrapper.valueType = .string from typed]
    exact ⟨rfl, rfl⟩
  | bytes bytes =>
    refine iff_of_true ⟨.string (libs.standard.encode bytes), ?_⟩ nofun
    rw [show wrapper.valueType = .bytes from typed]
    refine ⟨rfl, ?_⟩
    simp only [wrappedScalar, inverse, Option.some_or, Outcome.ofOption_some, Outcome.map_ok]

private theorem wrappedScalar_null (t : FieldType) :
    wrappedScalar libs t .null = .err (.typeMismatch "wrapper" "mismatch") := by
  cases t with
  | _ => rfl

/-- A listed wrapper without a value is printed as null, which is not read. -/
private theorem listed_trips (described : wrapper.Describes pool desc)
    (listed : wrapper.unlisted = false) (wraps : wrapper.Wraps msg)
    (inverse : ∀ bytes, libs.standard.decode (libs.standard.encode bytes) = some bytes) :
    wrapper.RoundTrips libs pool opts desc msg ↔
      (msg.getField 1).isSome = true ∧
        ∀ x, msg.getField 1 = some (.scalar (.f64 x)) → Ieee.Finite x := by
  have known : wellKnown? pool desc = some .wrapper := by
    rw [wellKnown?_described described, listed]
    rfl
  have type : (fieldType desc 1).getD .string = wrapper.valueType := by
    rw [fieldType_described described, Option.getD_some]
  unfold Wrapper.RoundTrips Wrapper.valueOf
  simp only [messageToJson_listed known, jsonToMessage_listed known, wrapperToJson, wrapperFromJson,
    type]
  cases held : msg.getField 1 with
  | none =>
    refine iff_of_false ?_ (fun both => (by cases both.1))
    rintro ⟨json, back, written, read, _⟩
    cases written
    obtain ⟨s, none, _⟩ := Outcome.bind_eq_ok.mp read
    rw [wrappedScalar_null] at none
    cases none
  | some value =>
    obtain ⟨s, rfl, typed⟩ := wraps value held
    have trip := scalar_trip listed typed inverse
    simp only [Option.isSome_some, Option.some.injEq, Value.scalar.injEq, true_and]
    rw [← trip]
    constructor
    · rintro ⟨json, back, written, read, _, same⟩
      obtain ⟨other, isRead, here⟩ := Outcome.bind_eq_ok.mp read
      cases here
      rw [DynMsg.getField_setField_self DynMsg.new_ordered] at same
      cases same
      exact ⟨json, written, isRead⟩
    · rintro ⟨json, written, read⟩
      refine ⟨json, (DynMsg.new desc noPool).setField 1 (.scalar s), written, ?_, rfl, ?_⟩
      · rw [read]
        rfl
      · rw [DynMsg.getField_setField_self DynMsg.new_ordered]

end Listed

section Unlisted

variable {libs : Libraries} {pool : DescriptorPool} {opts : JsonOptions} {desc : DescriptorProto}
  {msg : DynamicMessage} {field : FieldDescriptorProto}

/-- A message of one unsigned field. -/
structure OneUnsigned (desc : DescriptorProto) (field : FieldDescriptorProto) : Prop where
  fields : desc.field = [field]
  number : field.number = some 1
  unsigned : field.type = some .uint64 ∨ field.type = some .uint32
  own : field.extendee = none

private theorem notMap_of_unsigned (one : OneUnsigned desc field) : isMapField pool field = false := by
  rcases one.unsigned with type | type
  · simp [isMapField, type]
  · simp [isMapField, type]

private theorem isScalar_of_unsigned (one : OneUnsigned desc field) : IsScalar (typeOf field) := by
  unfold typeOf
  rcases one.unsigned with type | type
  · rw [type]
    decide
  · rw [type]
    decide

private theorem messageToJson_absent (plain : wellKnown? pool desc = none)
    (one : OneUnsigned desc field) (absent : msg.getField 1 = none) :
    messageToJson libs pool opts desc msg = .ok (.object
      (if opts.alwaysPrintPrimitiveFields then [(fieldJsonName field opts, .number (.posInt 0))]
        else [])) := by
  have number : field.number.getD 0 = 1 := by rw [one.number, Option.getD_some]
  have own : ¬ field.extendee.isSome = true := by simp [one.own]
  have zero : defaultJsonValue pool field opts = some (.number (.posInt 0)) := by
    unfold defaultJsonValue typeOf
    rcases one.unsigned with type | type
    · rw [type]
      rfl
    · rw [type]
      rfl
  rw [messageToJson_body, messageBody, wellKnownToJson, plain, Outcome.ok_bind, fieldsToJson,
    one.fields, List.foldlM_cons, if_neg own, number, absent, fieldToJson, notMap_of_unsigned one,
    if_neg Bool.false_ne_true, zero]
  cases opts.alwaysPrintPrimitiveFields with
  | _ => rfl

private theorem messageToJson_present (plain : wellKnown? pool desc = none)
    (one : OneUnsigned desc field) {s : ScalarValue} (present : msg.getField 1 = some (.scalar s)) :
    messageToJson libs pool opts desc msg =
      (scalarToJson libs (typeOf field) s opts).map fun json =>
        .object [(fieldJsonName field opts, json)] := by
  have number : field.number.getD 0 = 1 := by rw [one.number, Option.getD_some]
  have own : ¬ field.extendee.isSome = true := by simp [one.own]
  obtain ⟨notMessage, notGroup, notEnum⟩ := isScalar_of_unsigned one
  have written : valueToJson libs pool opts (messageToJsonImpl libs pool opts opts.maxDepth) field
      (.scalar s) 1 = scalarToJson libs (typeOf field) s opts := by
    unfold valueToJson scalarOrComplexToJson
    dsimp only
    split
    · contradiction
    · contradiction
    · contradiction
    · rfl
  rw [messageToJson_body, messageBody, wellKnownToJson, plain, Outcome.ok_bind, fieldsToJson,
    one.fields, List.foldlM_cons, if_neg own, number, present, fieldToJson, notMap_of_unsigned one,
    if_neg Bool.false_ne_true, written]
  cases scalarToJson libs (typeOf field) s opts with
  | _ => rfl

private theorem jsonToMessage_present (plain : wellKnown? pool desc = none)
    (one : OneUnsigned desc field) {jv : Json} (notNull : jv ≠ .null)
    (single : ∀ arr, jv ≠ .array arr) :
    jsonToMessage libs pool opts desc (.object [(fieldJsonName field opts, jv)]) =
      (jsonToScalar libs (typeOf field) jv (field.name.getD "") opts).map fun s =>
        (DynMsg.new desc pool).setField 1 (.scalar s) := by
  have number : field.number.getD 0 = 1 := by rw [one.number, Option.getD_some]
  have found : memberOf opts [(fieldJsonName field opts, jv)] field = some jv := by
    simp [memberOf, one.own, SortedMap.get?_cons]
  have known : unknownKey opts desc [(fieldJsonName field opts, jv)] = none := by
    simp [unknownKey, one.fields, one.own]
  have step (msg : DynamicMessage) : jsonToFieldStep libs pool opts
      (jsonToMessageImpl libs pool opts opts.maxDepth) [(fieldJsonName field opts, jv)] 0 msg field =
      (jsonToScalar libs (typeOf field) jv (field.name.getD "") opts).map fun s =>
        msg.setField 1 (.scalar s) := by
    unfold jsonToFieldStep
    rw [found]
    split
    · contradiction
    · rename_i same
      exact (notNull (Option.some.inj same)).elim
    · rename_i same
      cases same
      rw [jsonToField, notMap_of_unsigned one, if_neg Bool.false_ne_true,
        jsonToValue_scalar libs pool opts _ (isScalar_of_unsigned one) single, number]
      cases jsonToScalar libs (typeOf field) jv (field.name.getD "") opts with
      | _ => rfl
  rw [jsonToMessage_body]
  unfold parseBody wellKnownFromJson
  rw [plain, Outcome.ok_bind, one.fields]
  dsimp only
  rw [List.foldlM_cons, step, known]
  cases jsonToScalar libs (typeOf field) jv (field.name.getD "") opts with
  | _ => rfl

private theorem jsonToMessage_empty (plain : wellKnown? pool desc = none)
    (one : OneUnsigned desc field) :
    jsonToMessage libs pool opts desc (.object []) = .ok (DynMsg.new desc pool) := by
  have step (msg : DynamicMessage) : jsonToFieldStep libs pool opts
      (jsonToMessageImpl libs pool opts opts.maxDepth) [] 0 msg field = .ok msg := by
    simp [jsonToFieldStep, memberOf, one.own]
  rw [jsonToMessage_body]
  unfold parseBody wellKnownFromJson
  rw [plain, Outcome.ok_bind, one.fields]
  dsimp only
  rw [List.foldlM_cons, step]
  rfl

/-- What is read of a number, before it is narrowed. -/
private theorem jsonToScalar_unsigned {t : FieldType} (unsigned : t = .uint64 ∨ t = .uint32)
    {jv : Json} {x : UInt64} {fname : String} (parsed : parseU64 jv fname = .ok x) :
    jsonToScalar libs t jv fname opts =
      .ok (.u64 (if t = .uint64 then x else x.toUInt32.toUInt64)) := by
  rcases unsigned with rfl | rfl
  · rw [if_pos rfl, jsonToScalar, parsed, Outcome.map_ok]
  · rw [if_neg (by decide), jsonToScalar, parsed, Outcome.map_ok]

private theorem narrow_of_small {x : UInt64} (small : x.toNat < 2 ^ 32) :
    x.toUInt32.toUInt64 = x := by
  apply UInt64.toNat_inj.mp
  rw [UInt32.toNat_toUInt64, UInt64.toNat_toUInt32]
  exact Nat.mod_eq_of_lt small

/-- The cast of a number through a double. -/
private theorem toU64_double (x : UInt64) (finite : Ieee.Finite (Ieee.ofNat x.toNat)) :
    (Number.float (Ieee.ofNat x.toNat) finite).toU64 = x ↔
      Ieee.truncate64 0 (2 ^ 64 - 1) (Ieee.ofNat x.toNat) = x.toNat := by
  have range : 0 ≤ Ieee.truncate64 0 (2 ^ 64 - 1) (Ieee.ofNat x.toNat) ∧
      Ieee.truncate64 0 (2 ^ 64 - 1) (Ieee.ofNat x.toNat) ≤ 2 ^ 64 - 1 := by
    unfold Ieee.truncate64 Ieee.truncate
    dsimp only
    split
    · split
      · omega
      · split
        · omega
        · omega
    · omega
  show UInt64.ofNat (Ieee.truncate64 0 (2 ^ 64 - 1) (Ieee.ofNat x.toNat)).toNat = x ↔ _
  rw [← UInt64.toNat_inj, UInt64.toNat_ofNat']
  omega

/-- A set value of an unsigned field is printed, and read as the same value as a text, if it has
32 bits, or if a double can hold it. -/
private theorem unsigned_trip {t : FieldType} (unsigned : t = .uint64 ∨ t = .uint32) {x : UInt64}
    (fits : Representable t x.toNat) (fname : String) :
    ∃ json y, scalarToJson libs t (.u64 x) opts = .ok json ∧ json ≠ .null ∧
      (∀ arr, json ≠ .array arr) ∧ jsonToScalar libs t json fname opts = .ok (.u64 y) ∧
      (y = x ↔ t = .uint64 → opts.int64AsString = true ∨
        Ieee.truncate64 0 (2 ^ 64 - 1) (Ieee.ofNat x.toNat) = x.toNat) := by
  have small : t = .uint32 → x.toNat < 2 ^ 32 := by
    rintro rfl
    obtain ⟨low, high, range, _, below⟩ := fits
    cases range
    omega
  by_cases texts : opts.int64AsString = true
  · refine ⟨.string (toString x.toNat), _, ?_, by rintro ⟨⟩, by rintro _ ⟨⟩,
      jsonToScalar_unsigned unsigned (x := x) ?_, ?_⟩
    · rcases unsigned with rfl | rfl
      · rw [scalarToJson, if_pos texts]
      · rw [scalarToJson, if_pos texts]
    · rw [parseU64, Decimal.parseNat_toString, if_pos x.toNat_lt, Outcome.ofOption_some, Outcome.map_ok,
        UInt64.ofNat_toNat]
    · refine iff_of_true ?_ fun _ => .inl texts
      split
      · rfl
      · rename_i narrow
        exact narrow_of_small (small (unsigned.resolve_left narrow))
  · have finite := Ieee.finite_ofNat x.toNat_lt
    refine ⟨.number (.float (Ieee.ofNat x.toNat) finite), _, ?_, by rintro ⟨⟩, by rintro _ ⟨⟩,
      jsonToScalar_unsigned unsigned rfl, ?_⟩
    · have number : numberFromU64 x = .ok (.number (.float (Ieee.ofNat x.toNat) finite)) := by
        rw [numberFromU64, Number.fromF64, dif_pos finite]
        rfl
      rcases unsigned with rfl | rfl
      · rw [scalarToJson, if_neg texts, number]
      · rw [scalarToJson, if_neg texts, number]
    · rcases unsigned with rfl | rfl
      · rw [if_pos rfl, toU64_double]
        simp [texts]
      · rw [if_neg (by decide)]
        refine iff_of_true ?_ (by rintro ⟨⟩)
        have bound := x.toNat_lt
        have same := (toU64_double x finite).mpr (Ieee.truncate64_of_denotes
          (Ieee.denotes_ofNat (Nat.lt_of_lt_of_le (small rfl) (by decide))) (by omega) (by omega))
        rw [same, narrow_of_small (small rfl)]

variable {wrapper : Wrapper}

private theorem trips_of_printed {json : Json}
    (printed : messageToJson libs pool opts desc msg = .ok json) :
    wrapper.RoundTrips libs pool opts desc msg ↔
      ∃ back, jsonToMessage libs pool opts desc json = .ok back ∧ back.descriptor = desc ∧
        wrapper.valueOf back = wrapper.valueOf msg := by
  constructor
  · rintro ⟨json', back, printed', rest⟩
    cases printed.symm.trans printed'
    exact ⟨back, rest⟩
  · rintro ⟨back, rest⟩
    exact ⟨json, back, printed, rest⟩

private theorem valueOf_setField (s : ScalarValue) :
    wrapper.valueOf ((DynMsg.new desc pool).setField 1 (.scalar s)) = some s := by
  rw [Wrapper.valueOf, DynMsg.getField_setField_self DynMsg.new_ordered]

private theorem typeOf_unsigned (one : OneUnsigned desc field) :
    typeOf field = .uint64 ∨ typeOf field = .uint32 := by
  unfold typeOf
  rcases one.unsigned with type | type
  · rw [type]
    exact .inl rfl
  · rw [type]
    exact .inr rfl

/-- An absent value is read as absent, or as zero where such fields are printed. -/
private theorem absent_trips (plain : wellKnown? pool desc = none) (one : OneUnsigned desc field)
    (default : wrapper.defaultValue = .u64 0) (absent : msg.getField 1 = none) :
    wrapper.RoundTrips libs pool opts desc msg := by
  have same : wrapper.valueOf msg = some (.u64 0) := by rw [Wrapper.valueOf, absent, default]
  rw [trips_of_printed (messageToJson_absent plain one absent), same]
  by_cases always : opts.alwaysPrintPrimitiveFields = true
  · have zero : jsonToScalar libs (typeOf field) (.number (.posInt 0)) (field.name.getD "") opts =
        .ok (.u64 0) := by
      rw [jsonToScalar_unsigned (typeOf_unsigned one) (x := 0) rfl]
      split
      · rfl
      · rfl
    have read := @jsonToMessage_present libs pool opts _ _ plain one (.number (.posInt 0)) nofun nofun
    rw [if_pos always, read, zero]
    exact ⟨_, rfl, rfl, valueOf_setField _⟩
  · rw [if_neg always, jsonToMessage_empty plain one]
    refine ⟨_, rfl, rfl, ?_⟩
    exact congrArg some default

/-- A value that is set is read as the one that its JSON form denotes. -/
private theorem present_trips (plain : wellKnown? pool desc = none) (one : OneUnsigned desc field)
    {x : UInt64} (present : msg.getField 1 = some (.scalar (.u64 x)))
    (fits : Representable (typeOf field) x.toNat) :
    wrapper.RoundTrips libs pool opts desc msg ↔
      (typeOf field = .uint64 → opts.int64AsString = true ∨
        Ieee.truncate64 0 (2 ^ 64 - 1) (Ieee.ofNat x.toNat) = x.toNat) := by
  obtain ⟨json, y, written, notNull, single, read, same⟩ :=
    @unsigned_trip libs opts _ (typeOf_unsigned one) x fits (field.name.getD "")
  have printed := @messageToJson_present libs pool opts _ _ _ plain one _ present
  rw [written, Outcome.map_ok] at printed
  have held : wrapper.valueOf msg = some (.u64 x) := by rw [Wrapper.valueOf, present]
  rw [trips_of_printed printed, jsonToMessage_present plain one notNull single, read, held, ← same]
  constructor
  · rintro ⟨back, here, _, isSame⟩
    cases here
    rw [valueOf_setField] at isSame
    cases isSame
    rfl
  · rintro rfl
    exact ⟨_, rfl, rfl, valueOf_setField _⟩

end Unlisted

section All

variable {libs : Libraries} {pool : DescriptorPool} {opts : JsonOptions} {desc : DescriptorProto}
  {msg : DynamicMessage} {wrapper : Wrapper}

private theorem unsigned_of_typed {t : FieldType} {s : ScalarValue} (unsigned : readAs t = .uint64)
    (typed : ScalarTyped t s) : ∃ x, s = .u64 x ∧ Representable t x.toNat := by
  cases s with
  | u64 x => exact ⟨x, rfl, typed.2⟩
  | i64 x => exact absurd (typed.1.symm.trans unsigned) (by decide)
  | f64 x =>
    rcases typed with rfl | rfl
    · cases unsigned
    · cases unsigned
  | bool b =>
    cases typed
    cases unsigned
  | string text =>
    cases typed
    cases unsigned
  | bytes bytes =>
    cases typed
    cases unsigned

private theorem unlisted_trips (described : wrapper.Describes pool desc)
    (unlisted : wrapper.unlisted = true) (wraps : wrapper.Wraps msg) :
    wrapper.RoundTrips libs pool opts desc msg ↔ wrapper.Survives opts msg := by
  have plain : wellKnown? pool desc = none := by
    rw [wellKnown?_described described, unlisted]
    rfl
  have which : wrapper = .uint64Value ∨ wrapper = .uint32Value := by
    simpa [Wrapper.unlisted] using unlisted
  obtain ⟨field, fields, number, type, _, own, _⟩ := described.field
  have valueType : typeOf field = wrapper.valueType := by rw [typeOf, type, Option.getD_some]
  have one : OneUnsigned desc field := by
    refine ⟨fields, number, ?_, own⟩
    rw [type]
    rcases which with rfl | rfl
    · exact .inl rfl
    · exact .inr rfl
  cases held : msg.getField 1 with
  | none =>
    have default : wrapper.defaultValue = .u64 0 := by
      rcases which with rfl | rfl
      · rfl
      · rfl
    refine iff_of_true (absent_trips plain one default held) ?_
    rcases which with rfl | rfl
    · rw [Wrapper.Survives, if_pos rfl, held]
      refine .inr ?_
      rintro x ⟨⟩
    · trivial
  | some value =>
    obtain ⟨s, rfl, typed⟩ := wraps value held
    obtain ⟨x, rfl, fits⟩ : ∃ x, s = .u64 x ∧ Representable (typeOf field) x.toNat := by
      rw [valueType]
      have unsigned : readAs wrapper.valueType = .uint64 := by
        rcases which with rfl | rfl
        · rfl
        · rfl
      exact unsigned_of_typed unsigned typed
    rw [present_trips plain one held fits, valueType]
    rcases which with rfl | rfl
    · rw [Wrapper.Survives, if_pos rfl, held]
      simp [Wrapper.valueType]
    · refine iff_of_true ?_ trivial
      rintro ⟨⟩

end All

/-- A wrapper comes back unless it is of one of the seven listed types and empty or not finite, or
its value is one of 64 bits that is printed as a number that a double does not hold. -/
theorem wrappers_trip_iff (libs : Libraries)
    (inverse : ∀ bytes, libs.standard.decode (libs.standard.encode bytes) = some bytes)
    (pool : DescriptorPool) (opts : JsonOptions) (wrapper : Wrapper) (desc : DescriptorProto)
    (described : wrapper.Describes pool desc) (msg : DynamicMessage) (wraps : wrapper.Wraps msg) :
    wrapper.RoundTrips libs pool opts desc msg ↔ wrapper.Survives opts msg := by
  cases listed : wrapper.unlisted with
  | true => exact unlisted_trips described listed wraps
  | false =>
    rw [listed_trips described listed wraps inverse, Wrapper.Survives, if_neg, if_neg]
    · rintro rfl
      cases listed
    · rintro rfl
      cases listed

/-- The descriptor of a wrapper type. -/
private def wrapperDesc (wrapper : Wrapper) : DescriptorProto where
  name := some wrapper.typeName
  field := [{ name := some "value", number := some 1, label := some .optional
              type := some wrapper.valueType }]

private def poolOf (wrapper : Wrapper) : DescriptorPool :=
  ⟨[("google.protobuf." ++ wrapper.typeName, wrapperDesc wrapper)], [], [], "proto3"⟩

private theorem wrapperDesc_describes (wrapper : Wrapper)
    (named : wktName (poolOf wrapper) (wrapperDesc wrapper) = some wrapper.typeName) :
    wrapper.Describes (poolOf wrapper) (wrapperDesc wrapper) :=
  ⟨named, _, rfl, rfl, rfl, nofun, rfl, rfl⟩

private theorem sample_inverse (bytes : List UInt8) :
    sampleLibraries.standard.decode (sampleLibraries.standard.encode bytes) = some bytes :=
  Base64.decode_encode false bytes

/-- An unsigned integer above `2 ^ 63`, as a text. -/
theorem wrappers_trip_unsigned :
    Wrapper.RoundTrips .uint64Value sampleLibraries (poolOf .uint64Value) {}
      (wrapperDesc .uint64Value)
      ((DynMsg.new (wrapperDesc .uint64Value) noPool).setField 1 (.scalar (.u64 (2 ^ 63 + 1)))) := by
  refine (wrappers_trip_iff sampleLibraries sample_inverse _ {} .uint64Value _
    (wrapperDesc_describes .uint64Value (by decide)) _ ?_).mpr (.inl rfl)
  intro value held
  rw [DynMsg.getField_setField_self DynMsg.new_ordered] at held
  cases held
  have bound := UInt64.toNat_lt (2 ^ 63 + 1)
  exact ⟨_, rfl, rfl, _, _, rfl, by omega, by omega⟩

/-- An empty wrapper is printed as null, and null is refused. -/
theorem not_wrappers_trip : ¬ ∀ (libs : Libraries),
    (∀ bytes, libs.standard.decode (libs.standard.encode bytes) = some bytes) →
    ∀ (pool : DescriptorPool) (opts : JsonOptions) (wrapper : Wrapper) (desc : DescriptorProto),
      wrapper.Describes pool desc → ∀ msg, wrapper.Wraps msg →
        wrapper.RoundTrips libs pool opts desc msg := by
  intro all
  have described := wrapperDesc_describes .boolValue (by decide)
  obtain ⟨json, back, printed, read, _⟩ := all sampleLibraries sample_inverse _ {} .boolValue _ described
    (DynMsg.new (wrapperDesc .boolValue) noPool) nofun
  have known : wellKnown? (poolOf .boolValue) (wrapperDesc .boolValue) = some .wrapper := by decide
  rw [messageToJson_listed known] at printed
  rw [jsonToMessage_listed known] at read
  cases printed
  cases read

end TptProto.Json
