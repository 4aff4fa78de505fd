import TptProto.Json.Integers
import TptProto.Json.Members

/-! When a message that is read from JSON holds the values that its descriptor declares. -/

namespace TptProto.Json

open TptProto.Foundation TptProto.Core TptProto.Descriptor TptProto.Reflect

/-- The variant that a scalar type demands, in its range. -/
def ScalarTyped (t : FieldType) : ScalarValue → Prop
  | .i64 x => readAs t = .int64 ∧ Representable t x.toInt
  | .u64 x => readAs t = .uint64 ∧ Representable t x.toNat
  | .f64 _ => t = .double ∨ t = .float
  | .bool _ => t = .bool
  | .string _ => t = .string
  | .bytes _ => t = .bytes

/-- The type of a field is that of a message. -/
def IsMessage (t : FieldType) : Prop := t = .message ∨ t = .group

mutual

/-- Every stored value matches the descriptor. -/
inductive Typed (pool : DescriptorPool) : DynamicMessage → Prop where
  | mk {msg : DynamicMessage}
      (found : ∀ number value, msg.getField number = some value →
        (msg.descriptor.findFieldByNumber number).isSome = true)
      (typed : ∀ number value field, msg.getField number = some value →
        msg.descriptor.findFieldByNumber number = some field → FieldTyped pool field value) :
      Typed pool msg

/-- A map for a map field, a list for any other repeated field, else a single value. -/
inductive FieldTyped (pool : DescriptorPool) : FieldDescriptorProto → Value → Prop where
  | map {field kf vf : FieldDescriptorProto} {entries : List (Value × Value)}
      (isMap : isMapField pool field = true)
      (entryFields : mapEntryFields pool field = some (kf, vf))
      (keys : ∀ entry ∈ entries, ∃ s, entry.1 = .scalar s ∧ ScalarTyped (typeOf kf) s)
      (values : ∀ entry ∈ entries, SingleTyped pool vf entry.2) :
      FieldTyped pool field (.map entries)
  | list {field : FieldDescriptorProto} {items : List Value}
      (noMap : isMapField pool field = false) (repeated : field.label = some .repeated)
      (each : ∀ item ∈ items, SingleTyped pool field item) : FieldTyped pool field (.list items)
  | single {field : FieldDescriptorProto} {value : Value}
      (singular : field.label ≠ some .repeated) (typed : SingleTyped pool field value) :
      FieldTyped pool field value

/-- A single value of the declared type. -/
inductive SingleTyped (pool : DescriptorPool) : FieldDescriptorProto → Value → Prop where
  | scalar {field : FieldDescriptorProto} {s : ScalarValue} (typed : ScalarTyped (typeOf field) s) :
      SingleTyped pool field (.scalar s)
  | enum {field : FieldDescriptorProto} {n : Int32} (isEnum : typeOf field = .enum) :
      SingleTyped pool field (.enum n)
  | message {field : FieldDescriptorProto} {msg : DynamicMessage}
      (isMessage : IsMessage (typeOf field))
      (resolved : pool.lookupMessage (field.typeName.getD "") = some msg.descriptor)
      (typed : Typed pool msg) : SingleTyped pool field (.message msg)

end

section Standard

variable (pool : DescriptorPool) (desc : DescriptorProto)

/-- A singular field of a type, outside of oneofs. -/
def Declares (n : Int32) (t : FieldType) : Prop :=
  ∃ f, desc.findFieldByNumber n = some f ∧ f.label ≠ some .repeated ∧ typeOf f = t ∧
    f.oneofIndex = none

/-- A message-typed field resolves to the type with a full name. -/
def Resolves (f : FieldDescriptorProto) (name : String) : Prop :=
  typeOf f = .message ∧ (pool.lookupMessage name).isSome = true ∧
    pool.lookupMessage (f.typeName.getD "") = pool.lookupMessage name

/-- The fields of `google.protobuf.Value`, all singular. -/
structure StandardValue : Prop where
  null : ∃ f, desc.findFieldByNumber 1 = some f ∧ f.label ≠ some .repeated ∧ typeOf f = .enum
  number : ∃ f, desc.findFieldByNumber 2 = some f ∧ f.label ≠ some .repeated ∧ typeOf f = .double
  string : ∃ f, desc.findFieldByNumber 3 = some f ∧ f.label ≠ some .repeated ∧ typeOf f = .string
  bool : ∃ f, desc.findFieldByNumber 4 = some f ∧ f.label ≠ some .repeated ∧ typeOf f = .bool
  struct : ∃ f, desc.findFieldByNumber 5 = some f ∧ f.label ≠ some .repeated ∧
    Resolves pool f ".google.protobuf.Struct"
  list : ∃ f, desc.findFieldByNumber 6 = some f ∧ f.label ≠ some .repeated ∧
    Resolves pool f ".google.protobuf.ListValue"

/-- A descriptor declares the fields that its special form uses, as the standard one does. -/
def Standard : WellKnown → Prop
  | .timestamp | .duration => Declares desc 1 .int64 ∧ Declares desc 2 .int32
  | .fieldMask =>
    ∃ f, desc.findFieldByNumber 1 = some f ∧ f.label = some .repeated ∧ typeOf f = .string
  | .struct => ∃ f kf vf, desc.findFieldByNumber 1 = some f ∧ isMapField pool f = true ∧
    mapEntryFields pool f = some (kf, vf) ∧ typeOf kf = .string ∧
      Resolves pool vf ".google.protobuf.Value"
  | .listValue => ∃ f, desc.findFieldByNumber 1 = some f ∧ f.label = some .repeated ∧
    isMapField pool f = false ∧ Resolves pool f ".google.protobuf.Value"
  | .value => StandardValue pool desc
  | .any => Declares desc 1 .string ∧ Declares desc 2 .bytes
  | .empty => True
  | .wrapper => ∃ t, IsScalar t ∧ Declares desc 1 t

/-- Field numbers are distinct and present, and the special forms standard. -/
structure Regular : Prop where
  numbered : ∀ f ∈ desc.field, desc.findFieldByNumber (f.number.getD 0) = some f
  standard : ∀ form, wellKnown? pool desc = some form → Standard pool desc form

end Standard

section Shapes

/-- A map key of an integer type has no numeral out of its range. -/
def KeyShaped (t : FieldType) (key : String) : Prop :=
  ∀ n, Decimal.numeral? key = some n → (intRange t).isSome = true → Representable t n

/-- A wrapper is given a number for a floating-point or a signed type only, and in its range. -/
def WrapperShaped (t : FieldType) : Json → Prop
  | .number n => t = .double ∨ t = .float ∨
    readAs t = .int64 ∧ Representable t (n.asI64.getD 0).toInt
  | _ => True

/-- The special forms that always read what they are given as declared. -/
def Faithful : WellKnown → Prop
  | .timestamp | .duration | .fieldMask | .any | .empty => True
  | .struct | .value | .listValue | .wrapper => False

mutual

/-- The JSON value has the shape that the descriptor declares, at all depths. -/
inductive Shaped (pool : DescriptorPool) (opts : JsonOptions) : DescriptorProto → Json → Prop where
  | message {desc : DescriptorProto} {map : List (String × Json)}
      (plain : wellKnown? pool desc = none)
      (found : ∀ field jv, Kept opts desc desc.field map field jv →
        desc.findFieldByNumber (field.number.getD 0) = some field)
      (shaped : ∀ field jv, Kept opts desc desc.field map field jv →
        FieldShaped pool opts field jv) : Shaped pool opts desc (.object map)
  | faithful {desc : DescriptorProto} {json : Json} {form : WellKnown}
      (known : wellKnown? pool desc = some form) (faithful : Faithful form)
      (standard : Standard pool desc form) : Shaped pool opts desc json
  | wrapper {desc : DescriptorProto} {json : Json} (known : wellKnown? pool desc = some .wrapper)
      (standard : Standard pool desc .wrapper)
      (fits : WrapperShaped ((fieldType desc 1).getD .string) json) : Shaped pool opts desc json
  | struct {desc : DescriptorProto} {obj : List (String × Json)}
      (known : wellKnown? pool desc = some .struct) (standard : Standard pool desc .struct)
      (each : ∀ entry ∈ obj, ∀ d, pool.lookupMessage ".google.protobuf.Value" = some d →
        Shaped pool opts d entry.2) : Shaped pool opts desc (.object obj)
  | listValue {desc : DescriptorProto} {arr : List Json}
      (known : wellKnown? pool desc = some .listValue) (standard : Standard pool desc .listValue)
      (each : ∀ item ∈ arr, ∀ d, pool.lookupMessage ".google.protobuf.Value" = some d →
        Shaped pool opts d item) : Shaped pool opts desc (.array arr)
  | value {desc : DescriptorProto} {json : Json} (known : wellKnown? pool desc = some .value)
      (standard : Standard pool desc .value) (notNull : json ≠ .null)
      (object : ∀ obj, json = .object obj → ∀ d,
        pool.lookupMessage ".google.protobuf.Struct" = some d → Shaped pool opts d json)
      (array : ∀ arr, json = .array arr → ∀ d,
        pool.lookupMessage ".google.protobuf.ListValue" = some d → Shaped pool opts d json) :
      Shaped pool opts desc json

/-- An object for a map field; an array exactly for any other repeated field, which has to be of a
scalar type. -/
inductive FieldShaped (pool : DescriptorPool) (opts : JsonOptions) :
    FieldDescriptorProto → Json → Prop where
  | map {field kf vf : FieldDescriptorProto} {obj : List (String × Json)}
      (isMap : isMapField pool field = true)
      (entryFields : mapEntryFields pool field = some (kf, vf))
      (keys : ∀ entry ∈ obj, KeyShaped (typeOf kf) entry.1)
      (values : ∀ entry ∈ obj, SingleShaped pool opts vf entry.2) :
      FieldShaped pool opts field (.object obj)
  | list {field : FieldDescriptorProto} {arr : List Json} (noMap : isMapField pool field = false)
      (repeated : field.label = some .repeated) (scalar : IsScalar (typeOf field)) :
      FieldShaped pool opts field (.array arr)
  | single {field : FieldDescriptorProto} {jv : Json} (singular : field.label ≠ some .repeated)
      (shaped : SingleShaped pool opts field jv) : FieldShaped pool opts field jv

/-- No array for a scalar type; a message as its type declares. -/
inductive SingleShaped (pool : DescriptorPool) (opts : JsonOptions) :
    FieldDescriptorProto → Json → Prop where
  | scalar {field : FieldDescriptorProto} {jv : Json} (scalar : IsScalar (typeOf field))
      (single : ∀ arr, jv ≠ .array arr) : SingleShaped pool opts field jv
  | enum {field : FieldDescriptorProto} {jv : Json} (isEnum : typeOf field = .enum) :
      SingleShaped pool opts field jv
  | message {field : FieldDescriptorProto} {jv : Json} (isMessage : IsMessage (typeOf field))
      (shaped : ∀ d, pool.lookupMessage (field.typeName.getD "") = some d →
        Shaped pool opts d jv) : SingleShaped pool opts field jv

end

end Shapes

section Scalars

variable (libs : Libraries) (opts : JsonOptions)

theorem representable_i64 (x : Int64) : Representable .int64 x.toInt := by
  have low := x.le_toInt
  have high := x.toInt_lt
  exact ⟨_, _, rfl, by omega, by omega⟩

private theorem representable_u64 (x : UInt64) : Representable .uint64 x.toNat := by
  have high := x.toNat_lt
  exact ⟨_, _, rfl, by omega, by omega⟩

private theorem representable_i32 (x : Int32) : Representable .int32 x.toInt64.toInt := by
  have low := x.le_toInt
  have high := x.toInt_lt
  rw [Int32.toInt_toInt64]
  exact ⟨_, _, rfl, by omega, by omega⟩

private theorem representable_u32 (x : UInt32) : Representable .uint32 x.toUInt64.toNat := by
  have high := x.toNat_lt
  rw [UInt32.toNat_toUInt64]
  exact ⟨_, _, rfl, by omega, by omega⟩

/-- A sign multiplies as an integer does. -/
theorem toInt_signed {sign : Int64} {n : Int} (unit : sign = 1 ∨ sign = -1)
    (small : n.natAbs < 2 ^ 63) : (sign * Int64.ofInt n).toInt = sign.toInt * n := by
  have same : (Int64.ofInt n).toInt = n := Int64.toInt_ofInt_of_le (by omega) (by omega)
  rw [Int64.toInt_mul, same]
  rcases unit with rfl | rfl
  · rw [show (1 : Int64).toInt = 1 from rfl, Int.bmod_eq_of_le (by omega) (by omega)]
  · rw [show (-1 : Int64).toInt = -1 from rfl, Int.bmod_eq_of_le (by omega) (by omega)]

/-- Every scalar that is read is of its type. -/
theorem jsonToScalar_typed {t : FieldType} {jv : Json} {fname : String} {s : ScalarValue}
    (read : jsonToScalar libs t jv fname opts = .ok s) : ScalarTyped t s := by
  cases t with
  | string =>
    cases jv <;> simp only [jsonToScalar] at read <;> cases read
    rfl
  | bool =>
    cases jv <;> simp only [jsonToScalar] at read <;> cases read
    rfl
  | bytes =>
    cases jv <;> simp only [jsonToScalar, Outcome.map_eq_ok, reduceCtorEq] at read
    obtain ⟨_, _, rfl⟩ := read
    rfl
  | double =>
    cases jv <;> simp only [jsonToScalar, Outcome.map_eq_ok, reduceCtorEq, Outcome.ok.injEq] at read
    · cases read
      exact .inl rfl
    · obtain ⟨_, _, rfl⟩ := read
      exact .inl rfl
  | float =>
    cases jv <;> simp only [jsonToScalar, Outcome.map_eq_ok, reduceCtorEq, Outcome.ok.injEq] at read
    · cases read
      exact .inr rfl
    · obtain ⟨_, _, rfl⟩ := read
      exact .inr rfl
  | int32 | sint32 | sfixed32 =>
    obtain ⟨x, _, rfl⟩ := Outcome.map_eq_ok.mp read
    exact ⟨rfl, representable_i32 x.toInt32⟩
  | int64 | sint64 | sfixed64 =>
    obtain ⟨x, _, rfl⟩ := Outcome.map_eq_ok.mp read
    exact ⟨rfl, representable_i64 x⟩
  | uint32 | fixed32 =>
    obtain ⟨x, _, rfl⟩ := Outcome.map_eq_ok.mp read
    exact ⟨rfl, representable_u32 x.toUInt32⟩
  | uint64 | fixed64 =>
    obtain ⟨x, _, rfl⟩ := Outcome.map_eq_ok.mp read
    exact ⟨rfl, representable_u64 x⟩
  | enum | message | group => cases read

theorem jsonToEnum_enum {pool : DescriptorPool} {field : FieldDescriptorProto} {jv : Json}
    {value : Value} (read : jsonToEnum pool field jv = .ok value) : ∃ n, value = .enum n := by
  unfold jsonToEnum at read
  split at read
  · cases read
    exact ⟨_, rfl⟩
  · split at read
    · cases read
      exact ⟨_, rfl⟩
    · split at read
      · cases read
        exact ⟨_, rfl⟩
      · cases read
  · cases read

/-- A key that is read is of its type exactly if its numeral is in range. -/
private theorem jsonToMapKey_typed {kf : FieldDescriptorProto} {k : String} {key : Value}
    (read : jsonToMapKey kf k = .ok key) :
    KeyShaped (typeOf kf) k ↔ ∃ s, key = .scalar s ∧ ScalarTyped (typeOf kf) s := by
  have free (noInteger : intRange (typeOf kf) = none) : KeyShaped (typeOf kf) k := by
    intro n _ integer
    rw [noInteger] at integer
    cases integer
  have signed {n : Int} (parsed : Decimal.parseInt (2 ^ 63) k = some n)
      (isSigned : readAs (typeOf kf) = .int64) (integer : (intRange (typeOf kf)).isSome = true) :
      KeyShaped (typeOf kf) k ↔
        ∃ s, Value.scalar (.i64 (Int64.ofInt n)) = .scalar s ∧ ScalarTyped (typeOf kf) s := by
    obtain ⟨numeral, low, high⟩ := (Decimal.parseInt_eq_some (Nat.two_pow_pos 63)).mp parsed
    have same : (Int64.ofInt n).toInt = n := Int64.toInt_ofInt_of_le (by omega) (by omega)
    constructor
    · intro shaped
      exact ⟨_, rfl, isSigned, by rw [same]; exact shaped n numeral integer⟩
    · rintro ⟨s, sameValue, typed⟩ m numeral' _
      cases sameValue
      cases numeral.symm.trans numeral'
      have fits := typed.2
      rwa [same] at fits
  have unsigned {n : Nat} (parsed : Decimal.parseNat (2 ^ 64) k = some n)
      (isUnsigned : readAs (typeOf kf) = .uint64) (integer : (intRange (typeOf kf)).isSome = true) :
      KeyShaped (typeOf kf) k ↔
        ∃ s, Value.scalar (.u64 (UInt64.ofNat n)) = .scalar s ∧ ScalarTyped (typeOf kf) s := by
    obtain ⟨numeral, small, _⟩ := Decimal.parseNat_eq_some_iff.mp parsed
    have same : (UInt64.ofNat n).toNat = n := by
      rw [UInt64.toNat_ofNat']
      omega
    constructor
    · intro shaped
      exact ⟨_, rfl, isUnsigned, by rw [same]; exact shaped n numeral integer⟩
    · rintro ⟨s, sameValue, typed⟩ m numeral' _
      cases sameValue
      cases numeral.symm.trans numeral'
      have fits := typed.2
      rwa [same] at fits
  unfold jsonToMapKey at read
  split at read <;> rename_i type
  · cases read
    rw [type] at free ⊢
    exact iff_of_true (free rfl) ⟨_, rfl, rfl⟩
  · obtain ⟨b, _, rfl⟩ := Outcome.map_eq_ok.mp read
    rw [type] at free ⊢
    exact iff_of_true (free rfl) ⟨_, rfl, rfl⟩
  iterate 6
    next =>
      obtain ⟨n, parsed, rfl⟩ := Outcome.map_eq_ok.mp read
      exact signed (Outcome.ofOption_eq_ok.mp parsed) (by rw [type]; rfl) (by rw [type]; rfl)
  iterate 4
    next =>
      obtain ⟨n, parsed, rfl⟩ := Outcome.map_eq_ok.mp read
      exact unsigned (Outcome.ofOption_eq_ok.mp parsed) (by rw [type]; rfl) (by rw [type]; rfl)
  · cases read

end Scalars

section Fields

variable (libs : Libraries) {pool : DescriptorPool} {opts : JsonOptions}

/-- All descriptors of the pool are regular. -/
def AllRegular (pool : DescriptorPool) : Prop := ∀ entry ∈ pool.messages, Regular pool entry.2

theorem mem_of_lookupMessage {typeName : String} {desc : DescriptorProto}
    (resolved : pool.lookupMessage typeName = some desc) : ∃ entry ∈ pool.messages, entry.2 = desc := by
  unfold DescriptorPool.lookupMessage DescriptorPool.lookup at resolved
  simp only at resolved
  split at resolved
  · rename_i found isFound
    cases resolved
    obtain ⟨key, member⟩ : ∃ key, (key, desc) ∈ pool.messages := ⟨_, SortedMap.mem_of_get? isFound⟩
    exact ⟨_, member, rfl⟩
  · obtain ⟨entry, isFound, same⟩ := Option.map_eq_some_iff.mp resolved
    exact ⟨entry, List.mem_of_find?_eq_some isFound, same⟩

/-- A message that is read is typed exactly if its JSON value has the shape. -/
structure Agrees (pool : DescriptorPool) (opts : JsonOptions) (desc : DescriptorProto) (json : Json)
    (msg : DynamicMessage) : Prop where
  descriptor : msg.descriptor = desc
  typed : Shaped pool opts desc json → Typed pool msg
  shaped : AllRegular pool → Regular pool desc → Typed pool msg → Shaped pool opts desc json

variable {recurse : Nat → DescriptorProto → Json → JsonResult DynamicMessage}
  (nested : ∀ depth desc json msg, recurse depth desc json = .ok msg →
    Agrees pool opts desc json msg)
include nested

/-- A single value, or the list that is read from an array. -/
private theorem jsonToValue_typed {field : FieldDescriptorProto} {jv : Json} {depth : Nat}
    {value : Value} (read : jsonToValue libs pool opts recurse field jv depth = .ok value) :
    (SingleShaped pool opts field jv → SingleTyped pool field value) ∧
      (AllRegular pool → SingleTyped pool field value → SingleShaped pool opts field jv) := by
  by_cases isMessage : IsMessage (typeOf field)
  · have body : (do
        let sub ← Outcome.ofOption (.unresolvedType (field.typeName.getD ""))
          (pool.lookupMessage (field.typeName.getD ""))
        let dm ← recurse (depth + 1) sub jv
        .ok (.message dm) : JsonResult Value) = .ok value := by
      unfold jsonToValue at read
      rcases isMessage with same | same <;> rw [same] at read <;> exact read
    obtain ⟨sub, resolved, body⟩ := Outcome.bind_eq_ok.mp body
    obtain ⟨dm, inner, same⟩ := Outcome.bind_eq_ok.mp body
    cases same
    have agrees := nested _ _ _ _ inner
    replace resolved := Outcome.ofOption_eq_ok.mp resolved
    constructor
    · intro shaped
      have inside : Shaped pool opts sub jv := by
        cases shaped with
        | scalar scalar =>
          rcases isMessage with same | same
          · exact (scalar.1 same).elim
          · exact (scalar.2.1 same).elim
        | enum isEnum => rcases isMessage with same | same <;> rw [same] at isEnum <;> cases isEnum
        | message _ shaped => exact shaped sub resolved
      exact .message isMessage (by rw [agrees.descriptor]; exact resolved) (agrees.typed inside)
    · intro regular typed
      refine .message isMessage ?_
      intro d resolved'
      cases resolved.symm.trans resolved'
      obtain ⟨entry, member, same⟩ := mem_of_lookupMessage resolved
      cases typed with
      | message _ _ typed => exact agrees.shaped regular (same ▸ regular entry member) typed
  · by_cases isEnum : typeOf field = .enum
    · have body : jsonToEnum pool field jv = .ok value := by
        unfold jsonToValue at read
        rw [isEnum] at read
        exact read
      obtain ⟨n, rfl⟩ := jsonToEnum_enum body
      exact ⟨fun _ => .enum isEnum, fun _ _ => .enum isEnum⟩
    · have scalar : IsScalar (typeOf field) :=
        ⟨fun same => isMessage (.inl same), fun same => isMessage (.inr same), isEnum⟩
      by_cases array : ∃ arr, jv = .array arr
      · obtain ⟨arr, rfl⟩ := array
        rw [jsonToValue_array libs pool opts recurse scalar] at read
        obtain ⟨items, _, rfl⟩ := Outcome.map_eq_ok.mp read
        constructor
        · intro shaped
          cases shaped with
          | scalar _ single => exact (single arr rfl).elim
          | enum same => exact (isEnum same).elim
          | message same => exact (isMessage same).elim
        · intro _ typed
          cases typed
      · have single : ∀ arr, jv ≠ .array arr := fun arr same => array ⟨arr, same⟩
        rw [jsonToValue_scalar libs pool opts recurse scalar single] at read
        obtain ⟨s, isRead, rfl⟩ := Outcome.map_eq_ok.mp read
        exact ⟨fun _ => .scalar (jsonToScalar_typed libs opts isRead), fun _ _ => .scalar scalar single⟩

omit nested in
/-- Lists are read from arrays, for scalar types. -/
private theorem jsonToValue_list {field : FieldDescriptorProto} {jv : Json} {depth : Nat}
    {items : List Value} (read : jsonToValue libs pool opts recurse field jv depth = .ok (.list items)) :
    IsScalar (typeOf field) ∧ ∃ arr, jv = .array arr := by
  unfold jsonToValue at read
  simp only at read
  split at read
  · obtain ⟨_, _, read⟩ := Outcome.bind_eq_ok.mp read
    obtain ⟨_, _, read⟩ := Outcome.bind_eq_ok.mp read
    cases read
  · obtain ⟨_, _, read⟩ := Outcome.bind_eq_ok.mp read
    obtain ⟨_, _, read⟩ := Outcome.bind_eq_ok.mp read
    cases read
  · obtain ⟨n, same⟩ := jsonToEnum_enum read
    cases same
  · rename_i notMessage notGroup notEnum
    refine ⟨⟨notMessage, notGroup, notEnum⟩, ?_⟩
    split at read
    · exact ⟨_, rfl⟩
    · obtain ⟨_, _, read⟩ := Outcome.map_eq_ok.mp read
      cases read

omit nested in
private theorem jsonToValue_items {field : FieldDescriptorProto} {arr : List Json} {depth : Nat}
    {value : Value} (scalar : IsScalar (typeOf field))
    (read : jsonToValue libs pool opts recurse field (.array arr) depth = .ok value) :
    ∃ items, value = .list items ∧ ∀ item ∈ items, SingleTyped pool field item := by
  rw [jsonToValue_array libs pool opts recurse scalar] at read
  obtain ⟨items, each, rfl⟩ := Outcome.map_eq_ok.mp read
  refine ⟨items, rfl, ?_⟩
  intro item member
  obtain ⟨it, _, isRead⟩ := (Outcome.mapM_eq_ok_mem each).2 item member
  obtain ⟨s, isScalar, rfl⟩ := Outcome.map_eq_ok.mp isRead
  exact .scalar (jsonToScalar_typed libs opts isScalar)

omit nested in
theorem repeated_of_isMapField {field : FieldDescriptorProto} (isMap : isMapField pool field = true) :
    field.label = some .repeated := by
  simp only [isMapField, Bool.and_eq_true, decide_eq_true_eq] at isMap
  exact isMap.1.1

private theorem jsonToEntries_typed {kf vf : FieldDescriptorProto} {obj : List (String × Json)}
    {depth : Nat} {entries : List (Value × Value)}
    (read : jsonToEntries libs pool opts recurse kf vf depth obj = .ok entries) :
    ((∀ entry ∈ obj, KeyShaped (typeOf kf) entry.1 ∧ SingleShaped pool opts vf entry.2) →
      ∀ entry ∈ entries, (∃ s, entry.1 = .scalar s ∧ ScalarTyped (typeOf kf) s) ∧
        SingleTyped pool vf entry.2) ∧
    (AllRegular pool →
      (∀ entry ∈ entries, (∃ s, entry.1 = .scalar s ∧ ScalarTyped (typeOf kf) s) ∧
        SingleTyped pool vf entry.2) →
      ∀ entry ∈ obj, KeyShaped (typeOf kf) entry.1 ∧ SingleShaped pool opts vf entry.2) := by
  obtain ⟨covered, origin⟩ := Outcome.mapM_eq_ok_mem read
  constructor
  · intro shaped entry member
    obtain ⟨source, inside, isRead⟩ := origin entry member
    obtain ⟨key, isKey, isRead⟩ := Outcome.bind_eq_ok.mp isRead
    obtain ⟨value, isValue, same⟩ := Outcome.bind_eq_ok.mp isRead
    cases same
    obtain ⟨keyShaped, valueShaped⟩ := shaped source inside
    exact ⟨(jsonToMapKey_typed isKey).mp keyShaped,
      (jsonToValue_typed libs nested isValue).1 valueShaped⟩
  · intro regular typed source inside
    obtain ⟨entry, member, isRead⟩ := covered source inside
    obtain ⟨key, isKey, isRead⟩ := Outcome.bind_eq_ok.mp isRead
    obtain ⟨value, isValue, same⟩ := Outcome.bind_eq_ok.mp isRead
    cases same
    obtain ⟨keyTyped, valueTyped⟩ := typed _ member
    exact ⟨(jsonToMapKey_typed isKey).mpr keyTyped,
      (jsonToValue_typed libs nested isValue).2 regular valueTyped⟩

theorem jsonToField_typed {field : FieldDescriptorProto} {jv : Json} {depth : Nat}
    {value : Value} (read : jsonToField libs pool opts recurse field jv depth = .ok value) :
    (FieldShaped pool opts field jv → FieldTyped pool field value) ∧
      (AllRegular pool → FieldTyped pool field value → FieldShaped pool opts field jv) := by
  unfold jsonToField at read
  cases isMap : isMapField pool field with
  | true =>
    have repeated := repeated_of_isMapField isMap
    rw [isMap, if_pos rfl] at read
    split at read
    · cases read
    · rename_i kf vf entryFields
      split at read
      · rename_i obj
        obtain ⟨entries, isRead, rfl⟩ := Outcome.map_eq_ok.mp read
        obtain ⟨forward, backward⟩ := jsonToEntries_typed libs nested isRead
        constructor
        · intro shaped
          cases shaped with
          | map _ entryFields' keys values =>
            cases entryFields.symm.trans entryFields'
            have typed := forward fun entry member => ⟨keys entry member, values entry member⟩
            exact .map isMap entryFields (fun entry member => (typed entry member).1)
              fun entry member => (typed entry member).2
          | single singular => exact (singular repeated).elim
        · intro regular typed
          cases typed with
          | map _ entryFields' keys values =>
            cases entryFields.symm.trans entryFields'
            have shaped := backward regular fun entry member => ⟨keys entry member, values entry member⟩
            exact .map isMap entryFields (fun entry member => (shaped entry member).1)
              fun entry member => (shaped entry member).2
          | single singular => exact (singular repeated).elim
      · cases read
  | false =>
    rw [isMap, if_neg Bool.false_ne_true] at read
    by_cases repeated : field.label = some .repeated
    · constructor
      · intro shaped
        cases shaped with
        | map isMap' => rw [isMap] at isMap'; cases isMap'
        | list _ _ scalar =>
          obtain ⟨items, rfl, each⟩ := jsonToValue_items libs scalar read
          exact .list isMap repeated each
        | single singular => exact (singular repeated).elim
      · intro _ typed
        cases typed with
        | map isMap' => rw [isMap] at isMap'; cases isMap'
        | list =>
          obtain ⟨scalar, arr, rfl⟩ := jsonToValue_list libs read
          exact .list isMap repeated scalar
        | single singular => exact (singular repeated).elim
    · obtain ⟨forward, backward⟩ := jsonToValue_typed libs nested read
      constructor
      · intro shaped
        cases shaped with
        | map isMap' => rw [isMap] at isMap'; cases isMap'
        | list _ isRepeated => exact (repeated isRepeated).elim
        | single singular shaped => exact .single singular (forward shaped)
      · intro regular typed
        cases typed with
        | map isMap' => rw [isMap] at isMap'; cases isMap'
        | list _ isRepeated => exact (repeated isRepeated).elim
        | single singular typed => exact .single singular (backward regular typed)

end Fields

end TptProto.Json
