import TptProto.Json.Wrappers
import TptProto.Reflect.Oneof
import TptProto.Reflect.RoundTrip

/-! Printing a dynamic message as JSON and reading it gives the message back. -/

namespace TptProto.Json

open TptProto.Foundation TptProto.Core TptProto.Descriptor TptProto.Reflect

/-- The decoders of base64 undo its encoders. -/
structure Inverse (libs : Libraries) : Prop where
  standard : ∀ bytes, libs.standard.decode (libs.standard.encode bytes) = some bytes
  urlSafe : ∀ bytes, libs.urlSafe.decode (libs.urlSafe.encode bytes) = some bytes

/-- Integers are printed as texts, and unset fields not at all. -/
structure ExactOptions (opts : JsonOptions) : Prop where
  texts : opts.int64AsString = true
  set : opts.alwaysPrintPrimitiveFields = false

/-- A double with a spelling: finite, an infinity, or the NaN that is read. -/
def Spelled (bits : UInt64) : Prop :=
  Ieee.Finite bits ∨ bits = 0x7FF8000000000000 ∨ bits = 0x7FF0000000000000 ∨ bits = 0xFFF0000000000000

/-- A scalar that a type can hold and JSON can spell. -/
structure ScalarConforms (t : FieldType) (s : ScalarValue) : Prop where
  carries : ∃ word, Reflect.Carries t s word
  spelled : ∀ bits, s = .f64 bits → Spelled bits

/-- The values of an enum have names, which differ. -/
def NamesValues (pool : DescriptorPool) (field : FieldDescriptorProto) : Prop :=
  ∀ edesc, pool.lookupEnum (field.typeName.getD "") = some edesc →
    (edesc.value.map fun v => v.name).Nodup ∧ ∀ v ∈ edesc.value, v.name ≠ none

/-- One value of the declared type. Messages in it are taken as they come. -/
inductive SingleConforms (sub : DynamicMessage → Prop) (pool : DescriptorPool)
    (field : FieldDescriptorProto) : Value → Prop where
  | scalar {s : ScalarValue} (conforms : ScalarConforms (typeOf field) s) :
      SingleConforms sub pool field (.scalar s)
  | enum (isEnum : typeOf field = .enum) (names : NamesValues pool field) (n : Int32) :
      SingleConforms sub pool field (.enum n)
  | message {msg : DynamicMessage} (isMessage : typeOf field = .message ∨ typeOf field = .group)
      (resolved : pool.lookupMessage (field.typeName.getD "") = some msg.descriptor)
      (conforms : sub msg) : SingleConforms sub pool field (.message msg)

/-- The text of a map key of an integer, boolean or string type. -/
inductive KeyText : FieldType → Value → String → Prop where
  | string (s : String) : KeyText .string (.scalar (.string s)) s
  | bool (b : Bool) : KeyText .bool (.scalar (.bool b)) (toString b)
  | signed {t : FieldType} (signed : t = .int32 ∨ t = .int64 ∨ t = .sint32 ∨ t = .sint64 ∨
      t = .sfixed32 ∨ t = .sfixed64) (x : Int64) : KeyText t (.scalar (.i64 x)) (toString x.toInt)
  | unsigned {t : FieldType} (unsigned : t = .uint32 ∨ t = .uint64 ∨ t = .fixed32 ∨ t = .fixed64)
      (x : UInt64) : KeyText t (.scalar (.u64 x)) (toString x.toNat)

/-- The value of a field. Lists of enums and of messages are left out, which are not read from an
array; map entries are in the order of their key texts, as an object keeps them. -/
inductive FieldConforms (sub : DynamicMessage → Prop) (pool : DescriptorPool)
    (field : FieldDescriptorProto) : Value → Prop where
  | single {value : Value} (noMap : isMapField pool field = false)
      (conforms : SingleConforms sub pool field value) : FieldConforms sub pool field value
  | listed {items : List Value} (noMap : isMapField pool field = false)
      (each : ∀ item ∈ items, ∃ s, item = .scalar s ∧ ScalarConforms (typeOf field) s)
      (scalar : IsScalar (typeOf field)) : FieldConforms sub pool field (.list items)
  | map {kf vf : FieldDescriptorProto} {entries : List (Value × Value)} {key : Value → String}
      (isMap : isMapField pool field = true) (entryFields : mapEntryFields pool field = some (kf, vf))
      (texts : ∀ entry ∈ entries, KeyText (typeOf kf) entry.1 (key entry.1))
      (ascending : entries.Pairwise fun first second => key first.1 < key second.1)
      (values : ∀ entry ∈ entries, SingleConforms sub pool vf entry.2) :
      FieldConforms sub pool field (.map entries)

/-- A message of no well-known type, whose fields have JSON names of their own, hold values of
their types, and do not displace each other from a oneof. -/
structure ConformsOver (sub : DynamicMessage → Prop) (pool : DescriptorPool) (opts : JsonOptions)
    (msg : DynamicMessage) : Prop where
  ofPool : msg.pool = pool
  plain : wellKnown? pool msg.descriptor = none
  names : ((msg.descriptor.field.filter fun field => field.extendee.isNone).map fun field =>
    fieldJsonName field opts).Nodup
  sorted : SortedMap.Sorted msg.fields
  alone : ∀ first ∈ msg.fields, ∀ second ∈ msg.fields,
    displaces msg.descriptor first.1 second.1 = false
  declared : ∀ entry ∈ msg.fields, ∃ field ∈ msg.descriptor.field,
    field.extendee = none ∧ field.number.getD 0 = entry.1
  values : ∀ field ∈ msg.descriptor.field, field.extendee = none →
    ∀ value, msg.getField (field.number.getD 0) = some value → FieldConforms sub pool field value
  noExtensions : msg.extensions = []
  known : msg.unknown = .empty

/-- A message of this nesting at most that JSON can carry. -/
def Conforms (pool : DescriptorPool) (opts : JsonOptions) : Nat → DynamicMessage → Prop
  | 0 => fun _ => False
  | nesting + 1 => ConformsOver (Conforms pool opts nesting) pool opts

section Scalars

variable {libs : Libraries} {opts : JsonOptions} {t : FieldType} {s : ScalarValue}

private theorem parseI64_text (x : Int64) (fname : String) :
    parseI64 (.string (toString x.toInt)) fname = .ok x := by
  have low := Int64.le_toInt x
  have high := Int64.toInt_lt x
  have read : Decimal.parseInt (2 ^ 63) (toString x.toInt) = some x.toInt :=
    (Decimal.parseInt_eq_some (by decide)).mpr ⟨Decimal.numeral?_toString _, by omega, by omega⟩
  simp only [parseI64, read, Outcome.ofOption_some, Outcome.map_ok, Int64.ofInt_toInt]

private theorem parseU64_text (x : UInt64) (fname : String) :
    parseU64 (.string (toString x.toNat)) fname = .ok x := by
  have read : Decimal.parseNat (2 ^ 64) (toString x.toNat) = some x.toNat := by
    rw [Decimal.parseNat_toString, if_pos x.toNat_lt]
  simp only [parseU64, read, Outcome.ofOption_some, Outcome.map_ok, UInt64.ofNat_toNat]

private theorem floatToJson_trip {bits : UInt64} (spelled : Spelled bits) (fname : String)
    (floating : t = .double ∨ t = .float) :
    jsonToScalar libs t (floatToJson bits) fname opts = .ok (.f64 bits) ∧
      floatToJson bits ≠ .null ∧ ∀ arr, floatToJson bits ≠ .array arr := by
  have read : jsonToScalar libs t (floatToJson bits) fname opts =
      jsonToScalar libs .double (floatToJson bits) fname opts := by
    rcases floating with rfl | rfl <;> rfl
  have named (s : String) : Json.string s ≠ .null ∧ ∀ arr, Json.string s ≠ .array arr := by simp
  rw [read]
  rcases spelled with finite | rfl | rfl | rfl
  · simp only [floatToJson, Number.fromF64, dif_pos finite]
    exact ⟨rfl, by simp, by simp⟩
  · exact ⟨rfl, named _⟩
  · exact ⟨rfl, named _⟩
  · exact ⟨rfl, named _⟩

/-- A scalar is printed as a JSON value that is neither null nor an array, and is read as itself. -/
theorem ScalarConforms.trip (conforms : ScalarConforms t s) (inverse : Inverse libs) (exact : ExactOptions opts) :
    ∃ json, scalarToJson libs t s opts = .ok json ∧ json ≠ .null ∧ (∀ arr, json ≠ .array arr) ∧
      ∀ fname, jsonToScalar libs t json fname opts = .ok s := by
  obtain ⟨word, carries⟩ := conforms.carries
  have signed (x : Int64) : (if opts.int64AsString then
      (.ok (.string (toString x.toInt)) : JsonResult Json) else numberFromI64 x) =
        .ok (.string (toString x.toInt)) := if_pos exact.texts
  have unsigned (x : UInt64) : (if opts.int64AsString then
      (.ok (.string (toString x.toNat)) : JsonResult Json) else numberFromU64 x) =
        .ok (.string (toString x.toNat)) := if_pos exact.texts
  have narrow (v : Int32) : v.toInt64.toInt32 = v := Int32.toInt32_toInt64 v
  have narrowed (v : UInt32) : v.toUInt64.toUInt32 = v := UInt32.toUInt32_toUInt64 v
  cases carries with
  | int32 v | sint32 v | sfixed32 v =>
    refine ⟨_, signed v.toInt64, by simp, by simp, fun fname => ?_⟩
    simp only [jsonToScalar, parseI64_text, Outcome.map_ok, narrow]
  | int64 v | sint64 v | sfixed64 v =>
    refine ⟨_, signed v, by simp, by simp, fun fname => ?_⟩
    simp only [jsonToScalar, parseI64_text, Outcome.map_ok]
  | uint32 v | fixed32 v =>
    refine ⟨_, unsigned v.toUInt64, by simp, by simp, fun fname => ?_⟩
    simp only [jsonToScalar, parseU64_text, Outcome.map_ok, narrowed]
  | uint64 v | fixed64 v =>
    refine ⟨_, unsigned v, by simp, by simp, fun fname => ?_⟩
    simp only [jsonToScalar, parseU64_text, Outcome.map_ok]
  | float =>
    have trip (fname : String) := @floatToJson_trip libs opts .float _ (conforms.spelled _ rfl) fname (.inr rfl)
    exact ⟨_, rfl, (trip "").2.1, (trip "").2.2, fun fname => (trip fname).1⟩
  | double =>
    have trip (fname : String) := @floatToJson_trip libs opts .double _ (conforms.spelled _ rfl) fname (.inl rfl)
    exact ⟨_, rfl, (trip "").2.1, (trip "").2.2, fun fname => (trip fname).1⟩
  | bool b => exact ⟨_, rfl, by simp, by simp, fun fname => rfl⟩
  | string text => exact ⟨_, rfl, by simp, by simp, fun fname => rfl⟩
  | bytes bytes =>
    refine ⟨_, rfl, by simp, by simp, fun fname => ?_⟩
    cases standard : opts.bytesAsBase64 with
    | true => simp [jsonToScalar, decodeBase64, standard, inverse.standard]
    | false => simp [jsonToScalar, decodeBase64, standard, inverse.urlSafe]

/-- The values of these types are scalars. -/
theorem ScalarConforms.isScalar (conforms : ScalarConforms t s) : IsScalar t := by
  obtain ⟨word, carries⟩ := conforms.carries
  cases carries <;> decide

theorem KeyText.trip {kf : FieldDescriptorProto} {k : Value} {key : String}
    (text : KeyText (typeOf kf) k key) : mapKeyToJson kf k = .ok key ∧ jsonToMapKey kf key = .ok k := by
  unfold mapKeyToJson jsonToMapKey
  generalize typeOf kf = t at text
  cases text with
  | string s => exact ⟨rfl, rfl⟩
  | bool b => cases b <;> exact ⟨rfl, rfl⟩
  | signed signed x =>
    have low := Int64.le_toInt x
    have high := Int64.toInt_lt x
    have read : Decimal.parseInt (2 ^ 63) (toString x.toInt) = some x.toInt :=
      (Decimal.parseInt_eq_some (by decide)).mpr ⟨Decimal.numeral?_toString _, by omega, by omega⟩
    rcases signed with rfl | rfl | rfl | rfl | rfl | rfl <;>
      simp only [read, Outcome.ofOption_some, Outcome.map_ok, Int64.ofInt_toInt, and_self]
  | unsigned unsigned x =>
    have read : Decimal.parseNat (2 ^ 64) (toString x.toNat) = some x.toNat := by
      rw [Decimal.parseNat_toString, if_pos x.toNat_lt]
    rcases unsigned with rfl | rfl | rfl | rfl <;>
      simp only [read, Outcome.ofOption_some, Outcome.map_ok, UInt64.ofNat_toNat, and_self]

end Scalars

section Enums

variable {pool : DescriptorPool} {opts : JsonOptions} {field : FieldDescriptorProto}

/-- Where a property tells the elements apart, each is found by its own. -/
theorem find?_of_nodup {α β : Type} [DecidableEq β] {f : α → β} {items : List α} {item : α}
    (distinct : (items.map f).Nodup) (member : item ∈ items) :
    items.find? (fun other => decide (f other = f item)) = some item := by
  induction items with
  | nil => cases member
  | cons head rest ih =>
    rw [List.map_cons, List.nodup_cons] at distinct
    rcases List.mem_cons.mp member with rfl | later
    · rw [List.find?_cons_of_pos (by simp)]
    · rw [List.find?_cons_of_neg, ih distinct.2 later]
      simp only [decide_eq_true_eq]
      intro same
      exact distinct.1 (List.mem_map.mpr ⟨item, later, same.symm⟩)

/-- A value with a name is read by its name, and any other as a number. -/
theorem enum_trip (names : NamesValues pool field) (n : Int32) :
    jsonToEnum pool field (enumToJson pool field n opts) = .ok (.enum n) ∧
      enumToJson pool field n opts ≠ .null := by
  have number : jsonToEnum pool field (.number (.fromI64 n.toInt64)) = .ok (.enum n) := by
    rw [jsonToEnum, asI64_fromI64, Option.getD_some, Int32.toInt32_toInt64]
  unfold enumToJson
  split
  · exact ⟨number, by simp⟩
  · split
    · rename_i v found
      obtain ⟨edesc, resolved, chosen⟩ := Option.bind_eq_some_iff.mp found
      obtain ⟨distinct, named⟩ := names edesc resolved
      have member := List.mem_of_find?_eq_some chosen
      have holds : v.number = some n := by simpa using List.find?_some chosen
      cases name : v.name with
      | none => exact absurd name (named v member)
      | some text =>
        refine ⟨?_, by simp⟩
        have again : enumValue? pool field (fun v => v.name = some text) = some v := by
          rw [enumValue?, resolved, Option.bind_some, ← name]
          exact find?_of_nodup distinct member
        simp only [Option.getD_some, jsonToEnum, again, holds]
    · exact ⟨number, by simp⟩

end Enums

section Values

variable {libs : Libraries} {pool : DescriptorPool} {opts : JsonOptions}
  {write : Nat → DescriptorProto → DynamicMessage → JsonResult Json}
  {read : Nat → DescriptorProto → Json → JsonResult DynamicMessage}
  {sub : DynamicMessage → Prop} {depth depth' : Nat} {field : FieldDescriptorProto}

/-- Messages that are read from what is printed of them, at these depths. -/
def NestedTrips (sub : DynamicMessage → Prop)
    (write : Nat → DescriptorProto → DynamicMessage → JsonResult Json)
    (read : Nat → DescriptorProto → Json → JsonResult DynamicMessage) (depth depth' : Nat) : Prop :=
  ∀ msg, sub msg → ∃ json, json ≠ .null ∧ write depth msg.descriptor msg = .ok json ∧
    read depth' msg.descriptor json = .ok msg

private theorem scalar_written {t : FieldType} (scalar : IsScalar t) (s : ScalarValue) :
    scalarOrComplexToJson libs pool opts write field t (.scalar s) depth = scalarToJson libs t s opts := by
  obtain ⟨notMessage, notGroup, notEnum⟩ := scalar
  unfold scalarOrComplexToJson
  dsimp only
  split
  · contradiction
  · contradiction
  · contradiction
  · rfl

theorem SingleConforms.trip (inverse : Inverse libs) (exact : ExactOptions opts)
    (trips : NestedTrips sub write read (depth + 1) (depth' + 1)) {value : Value}
    (conforms : SingleConforms sub pool field value) :
    ∃ json, json ≠ .null ∧
      scalarOrComplexToJson libs pool opts write field (typeOf field) value depth = .ok json ∧
      jsonToValue libs pool opts read field json depth' = .ok value := by
  cases conforms with
  | scalar conforms =>
    obtain ⟨json, written, notNull, single, isRead⟩ := conforms.trip inverse exact
    refine ⟨json, notNull, by rw [scalar_written conforms.isScalar, written], ?_⟩
    rw [jsonToValue_scalar _ _ _ _ conforms.isScalar single, isRead, Outcome.map_ok]
  | enum isEnum names n =>
    obtain ⟨isRead, notNull⟩ := @enum_trip pool opts field names n
    refine ⟨_, notNull, ?_, ?_⟩
    · rw [isEnum]
      rfl
    · simp only [jsonToValue, isEnum, isRead]
  | @message msg isMessage resolved conforms =>
    obtain ⟨json, notNull, written, isRead⟩ := trips msg conforms
    refine ⟨json, notNull, ?_, ?_⟩
    · rcases isMessage with isMessage | isMessage <;>
        simp only [scalarOrComplexToJson, isMessage, resolved, Outcome.ofOption_some, Outcome.ok_bind, written]
    · rcases isMessage with isMessage | isMessage <;>
        simp only [jsonToValue, isMessage, resolved, Outcome.ofOption_some, Outcome.ok_bind, isRead]

private theorem single_written {value : Value} (conforms : SingleConforms sub pool field value) :
    valueToJson libs pool opts write field value depth =
      scalarOrComplexToJson libs pool opts write field (typeOf field) value (depth + 1) := by
  cases conforms <;> rfl

/-- Items that are printed and read one by one. -/
private theorem mapM_trip {α β ε ε' : Type} {f : α → Outcome ε β} {g : β → Outcome ε' α} {items : List α}
    (each : ∀ item ∈ items, ∃ b, f item = .ok b ∧ g b = .ok item) :
    ∃ bs, items.mapM f = .ok bs ∧ bs.mapM g = .ok items := by
  induction items with
  | nil => exact ⟨[], rfl, rfl⟩
  | cons item rest ih =>
    obtain ⟨b, there, back⟩ := each item List.mem_cons_self
    obtain ⟨bs, theres, backs⟩ := ih fun other member => each other (List.mem_cons_of_mem _ member)
    refine ⟨b :: bs, ?_, ?_⟩
    · rw [List.mapM_cons, there, Outcome.ok_bind, theres]
      rfl
    · rw [List.mapM_cons, back, Outcome.ok_bind, backs]
      rfl

/-- A list of scalars is printed as an array. -/
theorem list_trip (inverse : Inverse libs) (exact : ExactOptions opts) {items : List Value}
    (scalar : IsScalar (typeOf field))
    (each : ∀ item ∈ items, ∃ s, item = .scalar s ∧ ScalarConforms (typeOf field) s) :
    ∃ arr, valueToJson libs pool opts write field (.list items) depth = .ok (.array arr) ∧
      jsonToValue libs pool opts read field (.array arr) depth' = .ok (.list items) := by
  obtain ⟨arr, written, isRead⟩ := @mapM_trip _ _ _ _
    (fun it => scalarOrComplexToJson libs pool opts write field (typeOf field) it (depth + 1))
    (fun it => (jsonToScalar libs (typeOf field) it (field.name.getD "") opts).map Value.scalar)
    items (by
      intro item member
      obtain ⟨s, rfl, conforms⟩ := each item member
      obtain ⟨json, there, _, _, back⟩ := conforms.trip inverse exact
      exact ⟨json, by rw [scalar_written scalar, there], by rw [back, Outcome.map_ok]⟩)
  refine ⟨arr, ?_, ?_⟩
  · simp only [valueToJson, written, Outcome.map_ok]
  · rw [jsonToValue_array _ _ _ _ scalar, isRead, Outcome.map_ok]

/-- The entries of a map are printed as the members of an object, in the order of their keys. -/
theorem map_trip (inverse : Inverse libs) (exact : ExactOptions opts)
    (trips : NestedTrips sub write read (depth + 3) (depth' + 2)) {kf vf : FieldDescriptorProto}
    {entries : List (Value × Value)} {key : Value → String}
    (texts : ∀ entry ∈ entries, KeyText (typeOf kf) entry.1 (key entry.1))
    (ascending : entries.Pairwise fun first second => key first.1 < key second.1)
    (values : ∀ entry ∈ entries, SingleConforms sub pool vf entry.2) :
    ∃ obj, mapToJson libs pool opts write kf vf depth entries = .ok obj ∧
      jsonToEntries libs pool opts read kf vf depth' obj = .ok entries := by
  have from_ : ∀ done : List (String × Json),
      (∀ member ∈ done, ∀ entry ∈ entries, member.1 < key entry.1) →
      ∃ obj, entries.foldlM (fun obj entry => do
          let key ← mapKeyToJson kf entry.1
          let json ← valueToJson libs pool opts write vf entry.2 (depth + 1)
          (.ok (SortedMap.insert obj key json) : JsonResult _)) done = .ok (done ++ obj) ∧
        jsonToEntries libs pool opts read kf vf depth' obj = .ok entries := by
    induction entries with
    | nil => exact fun done _ => ⟨[], by rw [List.append_nil]; rfl, rfl⟩
    | cons entry rest ih =>
      intro done below
      rw [List.pairwise_cons] at ascending
      obtain ⟨keyed, keyRead⟩ := (texts entry List.mem_cons_self).trip
      have conforms := values entry List.mem_cons_self
      obtain ⟨json, _, written, isRead⟩ :=
        @SingleConforms.trip libs pool opts write read sub (depth + 2) (depth' + 1) vf inverse exact
          trips entry.2 conforms
      have inserted : SortedMap.insert done (key entry.1) json = done ++ [(key entry.1, json)] :=
        SortedMap.upsert_above (fun member inside => below member inside entry List.mem_cons_self) _
      obtain ⟨obj, added, back⟩ := ih (fun other member => texts other (List.mem_cons_of_mem _ member))
        ascending.2 (fun other member => values other (List.mem_cons_of_mem _ member))
        (done ++ [(key entry.1, json)]) (by
          intro member inside other later
          rcases List.mem_append.mp inside with earlier | last
          · exact below member earlier other (List.mem_cons_of_mem _ later)
          · rw [List.mem_singleton.mp last]
            exact ascending.1 other later)
      refine ⟨(key entry.1, json) :: obj, ?_, ?_⟩
      · rw [List.foldlM_cons]
        simp only [keyed, single_written conforms, written, Outcome.ok_bind, inserted]
        simpa using added
      · rw [jsonToEntries, List.mapM_cons]
        simp only [keyRead, isRead, Outcome.ok_bind]
        rw [← jsonToEntries, back]
        rfl
  obtain ⟨obj, written, isRead⟩ := from_ [] (by simp)
  exact ⟨obj, written, isRead⟩

/-- What a field holds is printed, and read as it was. -/
theorem FieldConforms.trip (inverse : Inverse libs) (exact : ExactOptions opts)
    (trips : NestedTrips sub write read (depth + 3) (depth' + 2)) {value : Value}
    (conforms : FieldConforms sub pool field value) :
    ∃ json, json ≠ .null ∧
      fieldToJson libs pool opts write field (some value) depth = .ok (some json) ∧
      jsonToField libs pool opts read field json depth' = .ok value := by
  cases conforms with
  | single noMap conforms =>
    obtain ⟨json, notNull, written, isRead⟩ :=
      @SingleConforms.trip libs pool opts write read sub (depth + 2) (depth' + 1) field inverse exact
        trips value conforms
    refine ⟨json, notNull, ?_, ?_⟩
    · rw [fieldToJson, noMap, if_neg Bool.false_ne_true]
      simp only [single_written conforms, written, Outcome.map_ok]
    · rw [jsonToField, noMap, if_neg Bool.false_ne_true, isRead]
  | @listed items noMap each scalar =>
    obtain ⟨arr, written, isRead⟩ :=
      @list_trip libs pool opts write read (depth + 1) (depth' + 1) field inverse exact items scalar each
    refine ⟨.array arr, by simp, ?_, ?_⟩
    · rw [fieldToJson, noMap, if_neg Bool.false_ne_true]
      simp only [written, Outcome.map_ok]
    · rw [jsonToField, noMap, if_neg Bool.false_ne_true, isRead]
  | @map kf vf entries key isMap entryFields texts ascending values =>
    obtain ⟨obj, written, isRead⟩ := @map_trip libs pool opts write read sub depth depth' inverse exact
      trips kf vf entries key texts ascending values
    refine ⟨.object obj, by simp, ?_, ?_⟩
    · rw [fieldToJson, if_pos isMap]
      simp only [entryFields, written, Outcome.map_ok]
    · rw [jsonToField, if_pos isMap]
      simp only [entryFields, isRead, Outcome.map_ok]

end Values

section Objects

variable {libs : Libraries} {pool : DescriptorPool} {opts : JsonOptions}
  {write : Nat → DescriptorProto → DynamicMessage → JsonResult Json}
  {read : Nat → DescriptorProto → Json → JsonResult DynamicMessage}
  {sub : DynamicMessage → Prop} {depth depth' : Nat} {msg : DynamicMessage}

/-- The JSON names of the fields that are not extensions. -/
def ownNames (opts : JsonOptions) (fields : List FieldDescriptorProto) : List String :=
  (fields.filter fun field => field.extendee.isNone).map fun field => fieldJsonName field opts

/-- What an object holds for fields of a message. -/
structure Holds (libs : Libraries) (pool : DescriptorPool) (opts : JsonOptions)
    (read : Nat → DescriptorProto → Json → JsonResult DynamicMessage) (depth' : Nat)
    (msg : DynamicMessage) (fields : List FieldDescriptorProto) (out : List (String × Json)) : Prop where
  sorted : SortedMap.Sorted out
  named : ∀ member ∈ out, member.1 ∈ ownNames opts fields
  unset : ∀ field ∈ fields, field.extendee = none → msg.getField (field.number.getD 0) = none →
    SortedMap.get? out (fieldJsonName field opts) = none
  set : ∀ field ∈ fields, field.extendee = none →
    ∀ value, msg.getField (field.number.getD 0) = some value →
      ∃ json, json ≠ .null ∧ SortedMap.get? out (fieldJsonName field opts) = some json ∧
        jsonToField libs pool opts read field json depth' = .ok value

theorem ownNames_append (fields more : List FieldDescriptorProto) :
    ownNames opts (fields ++ more) = ownNames opts fields ++ ownNames opts more := by
  simp [ownNames]

theorem ownNames_mem {fields : List FieldDescriptorProto} {field : FieldDescriptorProto}
    (inside : field ∈ fields) (own : field.extendee = none) :
    fieldJsonName field opts ∈ ownNames opts fields :=
  List.mem_map.mpr ⟨field, List.mem_filter.mpr ⟨inside, by rw [own]; rfl⟩, rfl⟩

/-- A name that is new is not in the object. -/
private theorem Holds.fresh {fields : List FieldDescriptorProto} {out : List (String × Json)} {name : String}
    (holds : Holds libs pool opts read depth' msg fields out) (new : name ∉ ownNames opts fields) :
    SortedMap.get? out name = none := by
  rw [SortedMap.get?_eq_none_iff]
  intro member inside same
  exact new (same ▸ holds.named member inside)

/-- The object stays as it is where a field adds nothing to it. -/
private theorem Holds.skip {fields : List FieldDescriptorProto} {field : FieldDescriptorProto}
    {out : List (String × Json)} (holds : Holds libs pool opts read depth' msg fields out)
    (unset : field.extendee = none → msg.getField (field.number.getD 0) = none ∧
      SortedMap.get? out (fieldJsonName field opts) = none) :
    Holds libs pool opts read depth' msg (fields ++ [field]) out where
  sorted := holds.sorted
  named := by
    intro member inside
    rw [ownNames_append]
    exact List.mem_append_left _ (holds.named member inside)
  unset := by
    intro other inside own absent
    rcases List.mem_append.mp inside with earlier | last
    · exact holds.unset other earlier own absent
    · cases List.mem_singleton.mp last
      exact (unset own).2
  set := by
    intro other inside own value held
    rcases List.mem_append.mp inside with earlier | last
    · exact holds.set other earlier own value held
    · cases List.mem_singleton.mp last
      rw [(unset own).1] at held
      cases held

/-- A field of a name of its own is added. -/
private theorem Holds.add {fields : List FieldDescriptorProto} {field : FieldDescriptorProto}
    {out : List (String × Json)} {value : Value} {json : Json}
    (holds : Holds libs pool opts read depth' msg fields out) (own : field.extendee = none)
    (new : fieldJsonName field opts ∉ ownNames opts fields)
    (held : msg.getField (field.number.getD 0) = some value) (notNull : json ≠ .null)
    (isRead : jsonToField libs pool opts read field json depth' = .ok value) :
    Holds libs pool opts read depth' msg (fields ++ [field])
      (SortedMap.insert out (fieldJsonName field opts) json) where
  sorted := holds.sorted.insert _ _
  named := by
    intro member inside
    rw [ownNames_append]
    rcases SortedMap.mem_upsert_key inside with same | earlier
    · rw [same]
      exact List.mem_append_right _ (ownNames_mem List.mem_cons_self own)
    · exact List.mem_append_left _ (holds.named member earlier)
  unset := by
    intro other inside own' absent
    rcases List.mem_append.mp inside with earlier | last
    · have apart : fieldJsonName other opts ≠ fieldJsonName field opts := by
        intro same
        exact new (same ▸ ownNames_mem earlier own')
      rw [SortedMap.get?_insert holds.sorted, if_neg apart]
      exact holds.unset other earlier own' absent
    · cases List.mem_singleton.mp last
      rw [held] at absent
      cases absent
  set := by
    intro other inside own' value' isHeld
    rcases List.mem_append.mp inside with earlier | last
    · have apart : fieldJsonName other opts ≠ fieldJsonName field opts := by
        intro same
        exact new (same ▸ ownNames_mem earlier own')
      rw [SortedMap.get?_insert holds.sorted, if_neg apart]
      exact holds.set other earlier own' value' isHeld
    · cases List.mem_singleton.mp last
      cases held.symm.trans isHeld
      exact ⟨json, notNull, SortedMap.get?_insert_self _ _ _, isRead⟩

/-- One more field is added to the object, if it is set. -/
theorem fieldsToJson_step (inverse : Inverse libs) (exact : ExactOptions opts)
    (trips : NestedTrips sub write read (depth + 3) (depth' + 2)) {fields : List FieldDescriptorProto}
    {field : FieldDescriptorProto} {out : List (String × Json)}
    (distinct : (ownNames opts (fields ++ [field])).Nodup)
    (conforms : field.extendee = none → ∀ value, msg.getField (field.number.getD 0) = some value →
      FieldConforms sub pool field value)
    (holds : Holds libs pool opts read depth' msg fields out) :
    ∃ next, (if field.extendee.isSome then (.ok out : JsonResult _)
        else do
          match ← fieldToJson libs pool opts write field (msg.getField (field.number.getD 0)) depth with
          | some json => .ok (SortedMap.insert out (fieldJsonName field opts) json)
          | none => .ok out) = .ok next ∧
      Holds libs pool opts read depth' msg (fields ++ [field]) next := by
  cases own : field.extendee with
  | some extended =>
    refine ⟨out, rfl, holds.skip fun absent => ?_⟩
    rw [own] at absent
    cases absent
  | none =>
    have new : fieldJsonName field opts ∉ ownNames opts fields := by
      rw [ownNames_append, List.nodup_append] at distinct
      intro inside
      exact distinct.2.2 _ inside _ (ownNames_mem List.mem_cons_self own) rfl
    rw [Option.isSome_none, if_neg Bool.false_ne_true]
    cases held : msg.getField (field.number.getD 0) with
    | none =>
      have printed : fieldToJson libs pool opts write field none depth = .ok none := by
        unfold fieldToJson
        simp only [exact.set, Bool.false_eq_true, if_false, ite_self]
      rw [printed]
      exact ⟨out, rfl, holds.skip fun _ => ⟨held, holds.fresh new⟩⟩
    | some value =>
      obtain ⟨json, notNull, printed, isRead⟩ :=
        @FieldConforms.trip libs pool opts write read sub depth depth' field inverse exact trips value
          (conforms own value held)
      rw [printed]
      exact ⟨_, rfl, holds.add own new held notNull isRead⟩

/-- The object of a message holds all that is set. -/
theorem fieldsToJson_holds (inverse : Inverse libs) (exact : ExactOptions opts)
    (trips : NestedTrips sub write read (depth + 3) (depth' + 2)) (conforms : ConformsOver sub pool opts msg) :
    ∃ out, fieldsToJson libs pool opts write msg depth msg.descriptor.field = .ok out ∧
      Holds libs pool opts read depth' msg msg.descriptor.field out := by
  have from_ : ∀ (rest fields : List FieldDescriptorProto) (out : List (String × Json)),
      fields ++ rest = msg.descriptor.field → Holds libs pool opts read depth' msg fields out →
      ∃ final, rest.foldlM (fun out field => do
          if field.extendee.isSome then (.ok out : JsonResult _)
          else
            match ← fieldToJson libs pool opts write field (msg.getField (field.number.getD 0)) depth with
            | some json => .ok (SortedMap.insert out (fieldJsonName field opts) json)
            | none => .ok out) out = .ok final ∧
        Holds libs pool opts read depth' msg msg.descriptor.field final := by
    intro rest
    induction rest with
    | nil =>
      intro fields out split holds
      rw [List.append_nil] at split
      exact ⟨out, rfl, split ▸ holds⟩
    | cons field rest ih =>
      intro fields out split holds
      have split' : (fields ++ [field]) ++ rest = msg.descriptor.field := by
        rw [← split, List.append_assoc, List.singleton_append]
      have inside : field ∈ msg.descriptor.field := split ▸ List.mem_append_cons_self
      have distinct : (ownNames opts (fields ++ [field])).Nodup := by
        have all : (ownNames opts ((fields ++ [field]) ++ rest)).Nodup := split' ▸ conforms.names
        rw [ownNames_append] at all
        exact (List.nodup_append.mp all).1
      obtain ⟨next, moved, holds⟩ := fieldsToJson_step inverse exact trips distinct
        (conforms.values field inside) holds
      obtain ⟨final, folded, holds⟩ := ih (fields ++ [field]) next split' holds
      refine ⟨final, ?_, holds⟩
      rw [List.foldlM_cons, moved, Outcome.ok_bind, folded]
  refine from_ msg.descriptor.field [] [] rfl ?_
  exact ⟨SortedMap.sorted_nil, by simp, by simp, by simp⟩

/-- What has been read after some of the fields: their values, and no others. -/
structure ReadSoFar (msg : DynamicMessage) (fields : List FieldDescriptorProto) (now : DynamicMessage) :
    Prop where
  descriptor : now.descriptor = msg.descriptor
  pool : now.pool = msg.pool
  extensions : now.extensions = []
  unknown : now.unknown = .empty
  ordered : now.Ordered
  held : ∀ number value, now.getField number = some value → msg.getField number = some value
  reached : ∀ field ∈ fields, field.extendee = none →
    now.getField (field.number.getD 0) = msg.getField (field.number.getD 0)

/-- One more field is read, if it is in the object. -/
theorem jsonToFieldStep_readSoFar (conforms : ConformsOver sub pool opts msg)
    {fields : List FieldDescriptorProto} {field : FieldDescriptorProto} {out : List (String × Json)}
    (holds : Holds libs pool opts read depth' msg msg.descriptor.field out)
    (inside : field ∈ msg.descriptor.field) {now : DynamicMessage} (soFar : ReadSoFar msg fields now) :
    ∃ next, jsonToFieldStep libs pool opts read out depth' now field = .ok next ∧
      ReadSoFar msg (fields ++ [field]) next := by
  have kept (absent : field.extendee = none → msg.getField (field.number.getD 0) = none) :
      ReadSoFar msg (fields ++ [field]) now := by
    refine { soFar with reached := ?_ }
    intro other member own
    rcases List.mem_append.mp member with earlier | last
    · exact soFar.reached other earlier own
    · cases List.mem_singleton.mp last
      rw [absent own]
      cases there : now.getField (field.number.getD 0) with
      | none => rfl
      | some value =>
        have here := soFar.held _ value there
        rw [absent own] at here
        cases here
  cases own : field.extendee with
  | some extended =>
    refine ⟨now, step_absent libs pool read ?_, kept fun absent => ?_⟩
    · rintro ⟨json, member, _⟩
      rw [memberOf, own, Option.isSome_some, if_pos rfl] at member
      cases member
    · rw [own] at absent
      cases absent
  | none =>
    have looked : memberOf opts out field = SortedMap.get? out (fieldJsonName field opts) := by
      rw [memberOf, own, Option.isSome_none, if_neg Bool.false_ne_true]
    cases held : msg.getField (field.number.getD 0) with
    | none =>
      refine ⟨now, step_absent libs pool read ?_, kept fun _ => held⟩
      rintro ⟨json, member, _⟩
      rw [looked, holds.unset field inside own held] at member
      cases member
    | some value =>
      obtain ⟨json, notNull, found, isRead⟩ := holds.set field inside own value held
      refine ⟨now.setField (field.number.getD 0) value, ?_, ?_⟩
      · rw [step_present libs pool read (looked.trans found) notNull, isRead, Outcome.ok_bind]
      have after (number : Int32) := DynMsg.getField_setField soFar.ordered (field.number.getD 0) number value
      refine ⟨soFar.descriptor, soFar.pool, soFar.extensions, soFar.unknown,
        DynMsg.setField_ordered soFar.ordered _ _, ?_, ?_⟩
      · intro number value' there
        rw [after] at there
        split at there
        · rename_i same
          cases there
          rw [same, held]
        · split at there
          · cases there
          · exact soFar.held number value' there
      · intro other member own'
        rw [after]
        split
        · rename_i same
          rw [same, held]
        · rename_i apart
          have earlier : other ∈ fields := by
            rcases List.mem_append.mp member with earlier | last
            · exact earlier
            · exact (apart (by rw [List.mem_singleton.mp last])).elim
          split
          · rename_i displaced
            -- A message never holds what setting another of its fields would clear.
            cases here : msg.getField (other.number.getD 0) with
            | none => rfl
            | some value' =>
              have alone := conforms.alone _ (SortedMap.mem_of_get? held) _ (SortedMap.mem_of_get? here)
              rw [soFar.descriptor, alone] at displaced
              cases displaced
          · exact soFar.reached other earlier own'

/-- All fields of the object are read. -/
theorem fold_readSoFar (conforms : ConformsOver sub pool opts msg) {out : List (String × Json)}
    (holds : Holds libs pool opts read depth' msg msg.descriptor.field out) :
    msg.descriptor.field.foldlM (jsonToFieldStep libs pool opts read out depth')
      (DynMsg.new msg.descriptor pool) = .ok msg := by
  have from_ : ∀ (rest fields : List FieldDescriptorProto) (now : DynamicMessage),
      fields ++ rest = msg.descriptor.field → ReadSoFar msg fields now →
      ∃ final, rest.foldlM (jsonToFieldStep libs pool opts read out depth') now = .ok final ∧
        ReadSoFar msg msg.descriptor.field final := by
    intro rest
    induction rest with
    | nil =>
      intro fields now split soFar
      rw [List.append_nil] at split
      exact ⟨now, rfl, split ▸ soFar⟩
    | cons field rest ih =>
      intro fields now split soFar
      have inside : field ∈ msg.descriptor.field := split ▸ List.mem_append_cons_self
      obtain ⟨next, moved, soFar⟩ := jsonToFieldStep_readSoFar conforms holds inside soFar
      obtain ⟨final, folded, soFar⟩ := ih (fields ++ [field]) next (by
        rw [← split, List.append_assoc, List.singleton_append]) soFar
      refine ⟨final, ?_, soFar⟩
      rw [List.foldlM_cons, moved, Outcome.ok_bind, folded]
  obtain ⟨final, folded, soFar⟩ := from_ msg.descriptor.field [] (DynMsg.new msg.descriptor pool) rfl
    ⟨rfl, conforms.ofPool.symm, rfl, rfl, DynMsg.new_ordered, fun _ _ held => (by cases held),
      fun _ inside => (by cases inside)⟩
  rw [folded]
  have fields : final.fields = msg.fields := by
    refine SortedMap.ext_get? soFar.ordered conforms.sorted fun number => ?_
    cases here : SortedMap.get? msg.fields number with
    | none =>
      cases there : SortedMap.get? final.fields number with
      | none => rfl
      | some value => rw [← here, ← there]; exact there.trans (soFar.held number value there).symm
    | some value =>
      obtain ⟨field, inside, own, same⟩ := conforms.declared _ (SortedMap.mem_of_get? here)
      rw [← here]
      rw [show number = field.number.getD 0 from same.symm]
      exact soFar.reached field inside own
  have descriptor := soFar.descriptor
  have ofPool := soFar.pool
  have extensions := soFar.extensions.trans conforms.noExtensions.symm
  have unknown := soFar.unknown.trans conforms.known.symm
  cases final
  cases msg
  simp_all

/-- No name of the object is left over. -/
theorem unknownKey_none {out : List (String × Json)}
    (holds : Holds libs pool opts read depth' msg msg.descriptor.field out) :
    unknownKey opts msg.descriptor out = none := by
  unfold unknownKey
  rw [List.find?_eq_none]
  intro name inside
  obtain ⟨member, given, rfl⟩ := List.mem_map.mp inside
  obtain ⟨field, filtered, same⟩ := List.mem_map.mp (holds.named member given)
  obtain ⟨declared, own⟩ := List.mem_filter.mp filtered
  simp only [Bool.not_eq_true', Bool.not_eq_false, List.any_eq_true]
  exact ⟨field, declared, by simp [own, same]⟩

end Objects

section Messages

variable {libs : Libraries} {pool : DescriptorPool} {opts : JsonOptions}

/-- Messages of a nesting within the limits are read from what is printed of them. -/
theorem Conforms.trips (inverse : Inverse libs) (exact : ExactOptions opts) :
    ∀ nesting left depth depth', nesting ≤ left → depth + 3 * (nesting - 1) ≤ opts.maxDepth →
      depth' + 2 * (nesting - 1) ≤ opts.maxDepth →
      NestedTrips (Conforms pool opts nesting) (messageToJsonImpl libs pool opts left)
        (jsonToMessageImpl libs pool opts left) depth depth' := by
  intro nesting
  induction nesting with
  | zero => exact fun _ _ _ _ _ _ msg conforms => conforms.elim
  | succ nesting ih =>
    intro left depth depth' fuel writes reads msg conforms
    cases left with
    | zero => omega
    | succ left =>
      have conforms : ConformsOver (Conforms pool opts nesting) pool opts msg := conforms
      have below : NestedTrips (Conforms pool opts nesting) (messageToJsonImpl libs pool opts left)
          (jsonToMessageImpl libs pool opts left) (depth + 3) (depth' + 2) := by
        cases nesting with
        | zero => exact fun _ conforms => conforms.elim
        | succ nesting => exact ih left (depth + 3) (depth' + 2) (by omega) (by omega) (by omega)
      obtain ⟨out, printed, holds⟩ := fieldsToJson_holds inverse exact below conforms
      refine ⟨.object out, by simp, ?_, ?_⟩
      · simp only [messageToJsonImpl]
        rw [if_neg (by omega), messageBody, wellKnownToJson, conforms.plain]
        simp only [Outcome.ok_bind, printed, Outcome.map_ok]
      · simp only [jsonToMessageImpl]
        rw [if_neg (by omega), parseBody, wellKnownFromJson, conforms.plain]
        simp only [Outcome.ok_bind, fold_readSoFar conforms holds, unknownKey_none holds]

end Messages

private theorem linked_conforms {nesting : Nat} {fields : List (Int32 × Value)}
    (sorted : SortedMap.Sorted fields) (declared : ∀ entry ∈ fields, entry.1 ∈ [(1 : Int32), 2, 3])
    (id : ∀ value, SortedMap.get? fields 1 = some value → ∃ v : Int32, value = .scalar (.i64 v.toInt64))
    (names : ∀ value, SortedMap.get? fields 2 = some value → value = .list [.scalar (.string "a")])
    (next : ∀ value, SortedMap.get? fields 3 = some value →
      ∃ inner, value = .message inner ∧ inner.descriptor = linkedType ∧ Conforms linkedPool {} nesting inner) :
    Conforms linkedPool {} (nesting + 1) (linked fields) where
  ofPool := rfl
  plain := show wellKnown? linkedPool linkedType = none by decide
  names := show ((linkedType.field.filter fun field => field.extendee.isNone).map fun field =>
    fieldJsonName field {}).Nodup by decide
  sorted := sorted
  alone := by
    intro first inside second _
    have apart : ∀ number ∈ [(1 : Int32), 2, 3], ∀ other, displaces linkedType number other = false := by
      intro number among other
      rcases List.mem_cons.mp among with rfl | among
      · rfl
      · rcases List.mem_cons.mp among with rfl | among
        · rfl
        · rw [List.mem_singleton.mp among]
          rfl
    exact apart first.1 (declared first inside) second.1
  declared := by
    intro entry inside
    have among := declared entry inside
    have each : ∀ number ∈ [(1 : Int32), 2, 3],
        ∃ field ∈ linkedType.field, field.extendee = none ∧ field.number.getD 0 = number := by
      simp only [List.forall_mem_cons]
      exact ⟨by decide, by decide, by decide, by simp⟩
    exact each entry.1 among
  values := by
    simp only [linked, DynMsg.new, linkedType, List.forall_mem_cons]
    refine ⟨fun _ value held => ?_, fun _ value held => ?_, fun _ value held => ?_, by simp⟩
    · obtain ⟨v, rfl⟩ := id value held
      exact .single rfl (.scalar ⟨⟨_, .sint32 v⟩, by simp⟩)
    · rw [names value held]
      refine .listed rfl ?_ ⟨by decide, by decide, by decide⟩
      intro item inside
      exact ⟨_, List.mem_singleton.mp inside, ⟨_, .string "a"⟩, by simp⟩
    · obtain ⟨inner, rfl, typed, conforms⟩ := next value held
      exact .single rfl (.message (.inl rfl) (typed ▸ rfl) conforms)
  noExtensions := rfl
  known := rfl

end TptProto.Json
