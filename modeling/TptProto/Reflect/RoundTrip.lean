import TptProto.Core.TableWritten
import TptProto.Reflect.MapEntries
import TptProto.Reflect.PackedFields

/-! Encoding a dynamic message and decoding the bytes gives the message back. -/

namespace TptProto.Reflect

open TptProto.Foundation TptProto.Core TptProto.Descriptor

/-- What a scalar type writes for a value it can hold. -/
inductive Carries : FieldType → ScalarValue → UnknownValue → Prop where
  | int32 (v : Int32) : Carries .int32 (.i64 v.toInt64) (.varint (int32Word v))
  | int64 (v : Int64) : Carries .int64 (.i64 v) (.varint v.toUInt64)
  | uint32 (v : UInt32) : Carries .uint32 (.u64 v.toUInt64) (.varint v.toUInt64)
  | uint64 (v : UInt64) : Carries .uint64 (.u64 v) (.varint v)
  | sint32 (v : Int32) : Carries .sint32 (.i64 v.toInt64) (.varint (encodeZigzag32 v).toUInt64)
  | sint64 (v : Int64) : Carries .sint64 (.i64 v) (.varint (encodeZigzag64 v))
  | fixed32 (v : UInt32) : Carries .fixed32 (.u64 v.toUInt64) (.fixed32 v)
  | sfixed32 (v : Int32) : Carries .sfixed32 (.i64 v.toInt64) (.fixed32 v.toUInt32)
  | fixed64 (v : UInt64) : Carries .fixed64 (.u64 v) (.fixed64 v)
  | sfixed64 (v : Int64) : Carries .sfixed64 (.i64 v) (.fixed64 v.toUInt64)
  | float {bits : UInt64} (single : Ieee.Representable bits) :
      Carries .float (.f64 bits) (.fixed32 (Ieee.narrow bits))
  | double (bits : UInt64) : Carries .double (.f64 bits) (.fixed64 bits)
  | bool (b : Bool) : Carries .bool (.bool b) (.varint (boolWord b))
  | string (s : String) : Carries .string (.string s) (.lengthDelimited (asBytes s))
  | bytes (b : List UInt8) : Carries .bytes (.bytes b) (.lengthDelimited b)

/-- A field number that a tag can carry. -/
structure Taggable (number : Int32) : Prop where
  nonzero : number.toUInt32 ≠ 0
  small : number.toUInt32.toNat < 2 ^ 29

/-- One value of the declared type. Messages in it are taken as they come. -/
inductive SingleConforms (sub : DynamicMessage → Prop) (pool : DescriptorPool)
    (field : FieldDescriptorProto) : Value → Prop where
  | scalar {s : ScalarValue} {word : UnknownValue}
      (carries : Carries (field.type.getD .string) s word) : SingleConforms sub pool field (.scalar s)
  | enum (isEnum : field.type.getD .string = .enum) (n : Int32) :
      SingleConforms sub pool field (.enum n)
  | message {msg : DynamicMessage}
      (isMessage : field.type.getD .string = .message ∨ field.type.getD .string = .group)
      (resolved : messageType pool field = some msg.descriptor) (conforms : sub msg) :
      SingleConforms sub pool field (.message msg)

/-- A list that is written as one packed body. Lists of enums are not read back from one. -/
structure PackedConforms (field : FieldDescriptorProto) (items : List Value) : Prop where
  label : field.label = some .repeated
  packs : packedAllowed (field.type.getD .string) = true
  notEnum : field.type.getD .string ≠ .enum
  each : ∀ item ∈ items, ∃ s word, item = .scalar s ∧ Carries (field.type.getD .string) s word

/-- The value of a declared field. Lists of messages are left out, which are not encoded, and so
are lists and maps without elements, of which nothing is written. -/
inductive FieldConforms (sub : DynamicMessage → Prop) (pool : DescriptorPool)
    (field : FieldDescriptorProto) : Value → Prop where
  | single {value : Value} (singular : field.label ≠ some .repeated)
      (conforms : SingleConforms sub pool field value) : FieldConforms sub pool field value
  | packed {items : List Value} (conforms : PackedConforms field items) :
      FieldConforms sub pool field (.list items)
  | listed {items : List Value} (label : field.label = some .repeated)
      (texts : field.type.getD .string = .string ∨ field.type.getD .string = .bytes)
      (nonempty : items ≠ [])
      (each : ∀ item ∈ items, ∃ s word, item = .scalar s ∧ Carries (field.type.getD .string) s word) :
      FieldConforms sub pool field (.list items)
  | map {entries : List (Value × Value)} (label : field.label = some .repeated)
      (isMap : isMapField pool field = true) (nonempty : entries ≠ [])
      (each : ∀ entry ∈ entries, sub (entryMessage pool field entry))
      (whole : ∀ entry ∈ entries, entryOf (.message (entryMessage pool field entry)) = entry) :
      FieldConforms sub pool field (.map entries)

/-- The value of an extension, which the decoder keeps one occurrence of. -/
inductive ExtensionConforms (sub : DynamicMessage → Prop) (pool : DescriptorPool)
    (field : FieldDescriptorProto) : Value → Prop where
  | single {value : Value} (conforms : SingleConforms sub pool field value) :
      ExtensionConforms sub pool field value
  | packed {items : List Value} (conforms : PackedConforms field items) :
      ExtensionConforms sub pool field (.list items)

/-- A message without unknown fields whose values are those of its type. -/
structure ConformsOver (sub : DynamicMessage → Prop) (pool : DescriptorPool) (msg : DynamicMessage) :
    Prop where
  ofPool : msg.pool = pool
  sorted : SortedMap.Sorted msg.fields
  fields : ∀ entry ∈ msg.fields, Taggable entry.1 ∧
    ∃ field, msg.descriptor.findFieldByNumber entry.1 = some field ∧
      FieldConforms sub pool field entry.2
  extSorted : SortedMap.Sorted msg.extensions
  extensions : ∀ entry ∈ msg.extensions, Taggable entry.1 ∧
    msg.descriptor.findFieldByNumber entry.1 = none ∧
      ∃ ext, extensionFor pool msg.descriptor entry.1 = some ext ∧ ext.number = some entry.1 ∧
        ExtensionConforms sub pool ext entry.2
  unknown : msg.unknown = .empty

/-- A message that conforms to its descriptor, with messages nested to a depth. -/
def Conforms (pool : DescriptorPool) : Nat → DynamicMessage → Prop
  | 0 => fun _ => False
  | depth + 1 => ConformsOver (Conforms pool depth) pool

/-- The bytes of a message are within the limits, and so are those of the messages in it. -/
inductive WithinLimits (pool : DescriptorPool) :
    DecoderLimits → UInt32 → DescriptorProto → List UInt8 → Prop where
  | intro {limits : DecoderLimits} {depth : UInt32} {descriptor : DescriptorProto}
      {bytes : List UInt8} (items : List Item) (wire : Items (wireOf pool descriptor) items bytes)
      (total : DecoderLimits.within limits.maxBytes bytes.length = true)
      (fields : DecoderLimits.within limits.maxFields items.length = true)
      (lengths : ∀ item ∈ items, item.value.Fits limits)
      (strings : ∀ item ∈ items, ∀ field,
        declared pool descriptor item.tag.fieldNumber.toInt32 = some field →
        field.type.getD .string = .string →
        DecoderLimits.within limits.maxStringLen item.value.payload.length = true)
      (packed : ∀ item ∈ items, ∀ field,
        declared pool descriptor item.tag.fieldNumber.toInt32 = some field →
        Packs field item.tag.wireType → depth + 1 ≤ limits.maxDepth ∧
          DecoderLimits.within limits.maxBytes item.value.payload.length = true)
      (bodies : ∀ item ∈ items, ∀ field sub,
        declared pool descriptor item.tag.fieldNumber.toInt32 = some field →
        field.type.getD .string = .message ∨ field.type.getD .string = .group →
        messageType pool field = some sub → depth + 1 ≤ limits.maxDepth)
      (nested : ∀ item ∈ items, ∀ field sub,
        declared pool descriptor item.tag.fieldNumber.toInt32 = some field →
        field.type.getD .string = .message ∨ field.type.getD .string = .group →
        messageType pool field = some sub →
        WithinLimits pool limits (depth + 1) sub item.value.payload) :
      WithinLimits pool limits depth descriptor bytes

/-- A field that is read by itself, from within the message. -/
def standsAlone (field : FieldDescriptorProto) : Bool :=
  field.label ≠ some .repeated && field.type.getD .string ≠ .message && field.type.getD .string ≠ .group

/-- Written items of fields that stand alone need no more than that their lengths are allowed. -/
theorem WithinLimits.flat {pool : DescriptorPool} {limits : DecoderLimits} {depth : UInt32}
    {descriptor : DescriptorProto} {items : List Item}
    (writable : ∀ item ∈ items, item.Writable (wireOf pool descriptor))
    (alone : ∀ item ∈ items,
      (declared pool descriptor item.tag.fieldNumber.toInt32).all standsAlone = true)
    (total : DecoderLimits.within limits.maxBytes (items.flatMap Item.written).length = true)
    (fields : DecoderLimits.within limits.maxFields items.length = true)
    (lengths : ∀ item ∈ items, item.value.Fits limits)
    (strings : ∀ item ∈ items,
      DecoderLimits.within limits.maxStringLen item.value.payload.length = true) :
    WithinLimits pool limits depth descriptor (items.flatMap Item.written) := by
  have apart {item : Item} (member : item ∈ items) {field : FieldDescriptorProto}
      (found : declared pool descriptor item.tag.fieldNumber.toInt32 = some field) :
      field.label ≠ some .repeated ∧
        ¬ (field.type.getD .string = .message ∨ field.type.getD .string = .group) := by
    have holds := alone item member
    rw [found, Option.all_some] at holds
    simp only [standsAlone, Bool.and_eq_true, decide_eq_true_eq] at holds
    exact ⟨holds.1.1, not_or.mpr ⟨holds.1.2, holds.2⟩⟩
  refine .intro items (items_written writable) total fields lengths
    (fun item member _ _ _ => strings item member) ?_ ?_ ?_
  · intro item member field found packs
    exact absurd packs.2.2.2 (apart member found).1
  · intro item member field sub found isMessage _
    exact absurd isMessage (apart member found).2
  · intro item member field sub found isMessage _
    exact absurd isMessage (apart member found).2

/-- What memory and the limits ask of one item. -/
structure Admits (pool : DescriptorPool) (limits : DecoderLimits) (depth : UInt32)
    (descriptor : DescriptorProto) (item : Item) : Prop where
  sized : item.value.payload.length < 2 ^ 63
  length : item.value.Fits limits
  string : ∀ field, declared pool descriptor item.tag.fieldNumber.toInt32 = some field →
    field.type.getD .string = .string →
    DecoderLimits.within limits.maxStringLen item.value.payload.length = true
  packed : ∀ field, declared pool descriptor item.tag.fieldNumber.toInt32 = some field →
    Packs field item.tag.wireType → depth + 1 ≤ limits.maxDepth ∧
      DecoderLimits.within limits.maxBytes item.value.payload.length = true
  shallow : ∀ field sub, declared pool descriptor item.tag.fieldNumber.toInt32 = some field →
    field.type.getD .string = .message ∨ field.type.getD .string = .group →
    messageType pool field = some sub → depth + 1 ≤ limits.maxDepth
  body : ∀ field sub, declared pool descriptor item.tag.fieldNumber.toInt32 = some field →
    field.type.getD .string = .message ∨ field.type.getD .string = .group →
    messageType pool field = some sub →
    WithinLimits pool limits (depth + 1) sub item.value.payload

section Scalars

variable {t : FieldType} {s : ScalarValue} {word : UnknownValue}

theorem Carries.wireType (carries : Carries t s word) : word.wireType = fieldWireType t := by
  cases carries <;> rfl

theorem Carries.plain (carries : Carries t s word) : ¬ (t = .message ∨ t = .group) := by
  cases carries <;> simp

/-- The writer of the type writes the word. -/
theorem Carries.written (carries : Carries t s word) :
    writeScalarValue t (.scalar s) = .ok word.bytes := by
  cases carries with
  | uint64 | int64 | sint64 | fixed64 | sfixed64 | double | bool | string | bytes | float => rfl
  | int32 v => rfl
  | uint32 v => rfl
  | sint32 v => simp [writeScalarValue, UnknownValue.bytes]
  | fixed32 v => simp [writeScalarValue, UnknownValue.bytes]
  | sfixed32 v =>
    have narrowed : v.toInt64.toUInt64.toUInt32 = v.toUInt32 := by
      have back := wordInt32_int32Word v
      simpa [wordInt32, int32Word] using congrArg Int32.toUInt32 back
    simp [writeScalarValue, UnknownValue.bytes, narrowed]

/-- What is read of the word is the value. -/
theorem Carries.read (carries : Carries t s word) {limits : DecoderLimits}
    (short : t = .string → DecoderLimits.within limits.maxStringLen word.payload.length = true) :
    interpretScalar limits t word = .ok (.scalar s) := by
  cases carries with
  | int64 | uint64 | fixed32 | fixed64 | double | bytes => rfl
  | int32 v => simp [interpretScalar, wordInt32_int32Word]
  | uint32 v => simp [interpretScalar]
  | sint32 v => simp [interpretScalar]
  | sint64 v => simp [interpretScalar]
  | sfixed32 v => simp [interpretScalar]
  | sfixed64 v => simp [interpretScalar]
  | float single =>
    have same : Ieee.widen (Ieee.narrow _) = _ := single
    simp only [interpretScalar, same]
  | bool b => cases b <;> rfl
  | string text =>
    have fits := short rfl
    simp only [UnknownValue.payload] at fits
    simp only [interpretScalar, DecoderLimits.checkString, DecoderLimits.check, fits, if_true,
      Outcome.mapErr_ok, Outcome.ok_bind, fromUtf8_asBytes, Outcome.ofOption_some]

end Scalars

section Writing

variable {pool : DescriptorPool} {limits : DecoderLimits} {depth : UInt32}
  {descriptor : DescriptorProto} {before middle after : DynamicMessage}

/-- What is written is read as a step from one message to another, within the limits. -/
def Writes (pool : DescriptorPool) (limits : DecoderLimits) (depth : UInt32)
    (descriptor : DescriptorProto) (written : ReflectResult (List UInt8))
    (before after : DynamicMessage) : Prop :=
  ∃ items : List Item, written = .ok (items.flatMap Item.written) ∧
    (∀ item ∈ items, item.tag.fieldNumber.toNat < 2 ^ 29 ∧
      item.value.wireType = wireOf pool descriptor item.tag) ∧
    ((∀ item ∈ items, Admits pool limits depth descriptor item) →
      items.foldlM (applyItem (DynMsg.decode pool) pool descriptor limits depth) before = .ok after)

theorem Writes.nothing : Writes pool limits depth descriptor (.ok []) before before :=
  ⟨[], rfl, by simp, fun _ => rfl⟩

theorem Writes.append {head tail : ReflectResult (List UInt8)}
    (first : Writes pool limits depth descriptor head before middle)
    (second : Writes pool limits depth descriptor tail middle after) :
    Writes pool limits depth descriptor (head >>= fun h => tail >>= fun t => .ok (h ++ t))
      before after := by
  obtain ⟨items, rfl, plain, folds⟩ := first
  obtain ⟨items', rfl, plain', folds'⟩ := second
  refine ⟨items ++ items', ?_, List.forall_mem_append.mpr ⟨plain, plain'⟩, fun admitted => ?_⟩
  · simp only [Outcome.ok_bind, List.flatMap_append]
  · obtain ⟨here, there⟩ := List.forall_mem_append.mp admitted
    rw [List.foldlM_append, folds here]
    exact folds' there

/-- Parts written one after another are steps one after another. -/
theorem Writes.each {α : Type} {write : α → ReflectResult (List UInt8)}
    (into : List α → DynamicMessage) {parts : List α}
    (step : ∀ done part rest, parts = done ++ part :: rest →
      Writes pool limits depth descriptor (write part) (into done) (into (done ++ [part]))) :
    Writes pool limits depth descriptor (writeEach write parts) (into []) (into parts) := by
  have along (rest : List α) : ∀ done, parts = done ++ rest →
      Writes pool limits depth descriptor (writeEach write rest) (into done) (into parts) := by
    induction rest with
    | nil =>
      intro done whole
      rw [whole, List.append_nil]
      exact Writes.nothing
    | cons part rest ih =>
      intro done whole
      have later := ih (done ++ [part]) (by rw [whole, List.append_assoc, List.singleton_append])
      exact (step done part rest whole).append later
  exact along parts [] rfl

/-- One written item is the step that its value takes. -/
theorem Writes.item {field : FieldDescriptorProto} {number : UInt32} {word : UnknownValue}
    (nonzero : number ≠ 0) (small : number.toNat < 2 ^ 29)
    (found : declared pool descriptor number.toInt32 = some field)
    (kind : word.wireType = wireFor field word.wireType)
    (taken : Admits pool limits depth descriptor ⟨⟨number, word.wireType, nonzero⟩, word⟩ →
      applyItem (DynMsg.decode pool) pool descriptor limits depth before
        ⟨⟨number, word.wireType, nonzero⟩, word⟩ = .ok after) :
    Writes pool limits depth descriptor (writeValue number word) before after := by
  refine ⟨[⟨⟨number, word.wireType, nonzero⟩, word⟩], ?_, ?_, fun admitted => ?_⟩
  · rw [writeValue, writeTag_eq nonzero]
    simp [Item.written]
  · simpa [wireOf, found] using ⟨small, kind⟩
  · rw [List.foldlM_cons, taken (admitted _ List.mem_cons_self)]
    rfl

/-- A message written from its start is decoded, wherever its bytes are within the limits. -/
theorem Writes.decode {written : ReflectResult (List UInt8)}
    (writes : Writes pool limits depth descriptor written (.new descriptor pool) after) :
    ∃ bytes, written = .ok bytes ∧ ∀ r : Reader, r.AtStart → r.limits = limits → r.depth = depth →
      r.rest = bytes → WithinLimits pool limits depth descriptor bytes →
      DynMsg.decode pool descriptor r = .ok after := by
  obtain ⟨items, rfl, plain, folds⟩ := writes
  refine ⟨_, rfl, fun r start sameLimits sameDepth rest within => ?_⟩
  subst sameLimits sameDepth
  have sized : ∀ item ∈ items, item.value.payload.length < 2 ^ 63 :=
    fun item member => Table.payload_lt rest member
  have wire : Items (wireOf pool descriptor) items r.rest := by
    rw [rest]
    refine items_written fun item member => ⟨(plain item member).1, (plain item member).2, ?_⟩
    have short := sized item member
    cases held : item.value with
    | lengthDelimited body =>
      rw [held, UnknownValue.payload] at short
      simp only [UnknownValue.Sized]
      omega
    | _ => trivial
  cases within with
  | intro items' wire' total fields lengths strings packed bodies nested =>
    rw [← rest] at wire'
    obtain rfl := wire.unique (item_delimited _) wire'
    rw [DynMsg.decode_eq, decodeWith_eq_ok_iff start.solvent]
    refine ⟨items, wire, ⟨lengths, ?_, ?_⟩, folds fun item member =>
      ⟨sized item member, lengths item member, strings item member, packed item member,
        bodies item member, nested item member⟩⟩
    · rw [start.bytesRead, Nat.zero_add, rest]
      exact total
    · rw [start.fieldCount, Nat.zero_add, Nat.mul_one]
      exact fields

end Writing

section Values

variable {pool : DescriptorPool} {sub : DynamicMessage → Prop} {field : FieldDescriptorProto}

/-- Messages that are decoded from what is written of them. -/
def Rereads (pool : DescriptorPool) (sub : DynamicMessage → Prop) : Prop :=
  ∀ msg, sub msg → ∀ limits depth,
    Writes pool limits depth msg.descriptor msg.encode (.new msg.descriptor pool) msg

theorem encodeFields_eq (fields : List (Int32 × Value)) :
    encodeFields fields = fields.map fun entry => (entry.1, entry.2.encodeField) := by
  induction fields with
  | nil => simp [encodeFields]
  | cons entry rest ih => simp [encodeFields, ih]

/-- A body that is decoded as a message. -/
theorem interpret_body (rereads : Rereads pool sub) {msg : DynamicMessage} (holds : sub msg)
    (isMessage : field.type.getD .string = .message ∨ field.type.getD .string = .group)
    (resolved : messageType pool field = some msg.descriptor) :
    ∃ bytes, msg.encode = .ok bytes ∧ ∀ limits depth descriptor tag,
      declared pool descriptor tag.fieldNumber.toInt32 = some field →
      Admits pool limits depth descriptor ⟨tag, .lengthDelimited bytes⟩ →
      interpret (DynMsg.decode pool) pool limits depth field .lengthDelimited
        (.lengthDelimited bytes) = .ok (.message msg) := by
  obtain ⟨bytes, encoded, _⟩ := (rereads msg holds .default 0).decode
  refine ⟨bytes, encoded, fun limits depth descriptor tag found admitted => ?_⟩
  obtain ⟨bytes', encoded', decodes⟩ := (rereads msg holds limits (depth + 1)).decode
  obtain rfl : bytes = bytes' := by simpa using encoded.symm.trans encoded'
  have sized : bytes.length < 2 ^ 63 := admitted.sized
  have shallow := admitted.shallow field _ found isMessage resolved
  have within := admitted.body field _ found isMessage resolved
  have opened : Reader.nestedAt limits depth (.ofBytes bytes) =
      .ok (Reader.childAt limits depth (.ofBytes bytes)) :=
    Reader.nestedAt_eq_ok_iff.mpr ⟨shallow, rfl⟩
  have rest : (Reader.childAt limits depth (.ofBytes bytes)).rest = bytes := by
    rw [Reader.childAt_rest, Slice.bytes_ofBytes sized]
  have decoded := decodes (Reader.childAt limits depth (.ofBytes bytes)) ⟨rfl, rfl, rfl⟩ rfl rfl rest
    within
  simp only [interpret, if_pos isMessage, resolved, Outcome.ofOption_some, Outcome.ok_bind,
    UnknownValue.payload, opened, Outcome.mapErr_ok, decoded]

/-- An element that stands alone is not read as a packed body. -/
theorem not_packs_own {wire : WireType} (own : wire = fieldWireType (field.type.getD .string)) :
    ¬ Packs field wire := fun packs =>
  fieldWireType_packed packs.2.1 (own.symm.trans packs.1)

theorem wireFor_own {wire : WireType} (own : wire = fieldWireType (field.type.getD .string)) :
    wire = wireFor field wire := by
  rw [wireFor, if_neg (not_packs_own own), own]

/-- A scalar that stands alone is written as its word and read back. -/
theorem Carries.trip (pool : DescriptorPool) {s : ScalarValue} {word : UnknownValue}
    (carries : Carries (field.type.getD .string) s word) :
    (Value.scalar s).encodeField pool field = writeValue (fieldNumber field) word ∧
      ∀ limits depth descriptor tag, declared pool descriptor tag.fieldNumber.toInt32 = some field →
        Admits pool limits depth descriptor ⟨tag, word⟩ →
        interpret (DynMsg.decode pool) pool limits depth field word.wireType word =
          .ok (.scalar s) := by
  refine ⟨?_, fun limits depth descriptor tag found admitted => ?_⟩
  · simp only [Value.encodeField, carries.written, writeValue, carries.wireType, Outcome.ok_bind]
  · simp only [interpret, if_neg carries.plain, if_neg (not_packs_own carries.wireType)]
    exact carries.read fun isString => admitted.string field found isString

/-- A single value is written as one word and read back. -/
theorem SingleConforms.trip (rereads : Rereads pool sub) {value : Value}
    (conforms : SingleConforms sub pool field value) :
    ∃ word : UnknownValue, value.encodeField pool field = writeValue (fieldNumber field) word ∧
      word.wireType = fieldWireType (field.type.getD .string) ∧
      ∀ limits depth descriptor tag, declared pool descriptor tag.fieldNumber.toInt32 = some field →
        Admits pool limits depth descriptor ⟨tag, word⟩ →
        interpret (DynMsg.decode pool) pool limits depth field word.wireType word = .ok value := by
  cases conforms with
  | @scalar s word carries =>
    obtain ⟨written, read⟩ := carries.trip pool
    exact ⟨word, written, carries.wireType, read⟩
  | enum isEnum n =>
    have own : WireType.varint = fieldWireType (field.type.getD .string) := by rw [isEnum]; rfl
    have plain : ¬ (field.type.getD .string = .message ∨ field.type.getD .string = .group) := by
      simp [isEnum]
    refine ⟨.varint (int32Word n), rfl, own, fun limits depth descriptor tag found admitted => ?_⟩
    have unpacked : ¬ Packs field (UnknownValue.varint (int32Word n)).wireType := not_packs_own own
    simp only [interpret, if_neg plain, if_neg unpacked]
    rw [isEnum]
    simp only [interpretScalar, wordInt32_int32Word]
  | @message msg isMessage resolved holds =>
    obtain ⟨bytes, encoded, read⟩ := interpret_body rereads holds isMessage resolved
    have own : WireType.lengthDelimited = fieldWireType (field.type.getD .string) := by
      rcases isMessage with same | same <;> rw [same] <;> rfl
    refine ⟨.lengthDelimited bytes, ?_, own, read⟩
    have asMessage : encodeMessage msg = .ok bytes := encoded
    simp only [Value.encodeField, asMessage, Outcome.ok_bind]
    rfl

/-- The elements of a packed list, as they stand in its body. -/
theorem exists_words (packs : packedAllowed (field.type.getD .string) = true) {items : List Value}
    (each : ∀ item ∈ items, ∃ s word, item = .scalar s ∧ Carries (field.type.getD .string) s word) :
    ∃ words : List UnknownValue,
      writeEach (writeScalarValue (field.type.getD .string)) items =
        .ok (words.flatMap UnknownValue.bytes) ∧
      (∀ word ∈ words, word.wireType = fieldWireType (field.type.getD .string)) ∧
      words.map (scalarWord (field.type.getD .string)) = items := by
  induction items with
  | nil => exact ⟨[], rfl, by simp, rfl⟩
  | cons item rest ih =>
    obtain ⟨words, written, kinds, read⟩ := ih fun other member => each other (List.mem_cons_of_mem _ member)
    obtain ⟨s, word, rfl, carries⟩ := each item List.mem_cons_self
    have single : scalarWord (field.type.getD .string) word = .scalar s := by
      have whole := interpretScalar_word packs carries.wireType .unlimited
      have same := @Carries.read _ _ _ carries .unlimited fun _ => rfl
      rw [same] at whole
      exact (Outcome.ok.inj whole).symm
    refine ⟨word :: words, ?_, List.forall_mem_cons.mpr ⟨carries.wireType, kinds⟩, ?_⟩
    · rw [writeEach, carries.written, written]
      rfl
    · rw [List.map_cons, single, read]

/-- A packed list is written as one body and read back. -/
theorem PackedConforms.trip (pool : DescriptorPool) {items : List Value}
    (conforms : PackedConforms field items) :
    ∃ body : List UInt8, (Value.list items).encodeField pool field =
        writeValue (fieldNumber field) (.lengthDelimited body) ∧
      Packs field .lengthDelimited ∧
      ∀ limits depth descriptor tag, declared pool descriptor tag.fieldNumber.toInt32 = some field →
        tag.wireType = .lengthDelimited →
        Admits pool limits depth descriptor ⟨tag, .lengthDelimited body⟩ →
        interpret (DynMsg.decode pool) pool limits depth field .lengthDelimited
          (.lengthDelimited body) = .ok (.list items) := by
  have packs : Packs field .lengthDelimited := ⟨rfl, conforms.packs, conforms.notEnum, conforms.label⟩
  obtain ⟨words, written, kinds, read⟩ := exists_words conforms.packs conforms.each
  have fixed := fieldWireType_packed conforms.packs
  refine ⟨words.flatMap UnknownValue.bytes, ?_, packs,
    fun limits depth descriptor tag found kind admitted => ?_⟩
  · simp only [Value.encodeField, encodeList, conforms.packs, if_true, written, Outcome.ok_bind]
    rfl
  · obtain ⟨shallow, budget⟩ := admitted.packed field found (by rw [kind]; exact packs)
    have short : (words.flatMap UnknownValue.bytes).length < 2 ^ 63 := admitted.sized
    have plain : ¬ (field.type.getD .string = .message ∨ field.type.getD .string = .group) := by
      intro message
      have allowed := conforms.packs
      rcases message with same | same <;> rw [same] at allowed <;> cases allowed
    have opened : Reader.nestedAt limits depth (.ofBytes (words.flatMap UnknownValue.bytes)) =
        .ok (Reader.childAt limits depth (.ofBytes (words.flatMap UnknownValue.bytes))) :=
      Reader.nestedAt_eq_ok_iff.mpr ⟨shallow, rfl⟩
    have element : decodeScalar (field.type.getD .string) =
        readElement .wire (fieldWireType (field.type.getD .string))
          (fun limits => interpretScalar limits (field.type.getD .string)) := by
      funext reader
      exact decodeScalar_eq _ (not_or.mp plain) reader
    have wire : Elements (fieldWireType (field.type.getD .string)) words
        (words.flatMap UnknownValue.bytes) := by
      refine elements_bytes kinds fun word member => ?_
      cases held : word with
      | lengthDelimited bytes =>
        have kind := kinds word member
        rw [held] at kind
        exact absurd kind.symm fixed
      | _ => trivial
    have decoded : Reader.readAll (decodeScalar (field.type.getD .string))
        (Reader.childAt limits depth (.ofBytes (words.flatMap UnknownValue.bytes))) = .ok items := by
      rw [element, readAll_elements wire fixed short budget
        fun word member => interpretScalar_word conforms.packs (kinds word member) limits, read]
    simp only [interpret, if_neg plain, if_pos packs, UnknownValue.payload, opened,
      Outcome.mapErr_ok, Outcome.ok_bind, decoded]

end Values

section Encoders

/-- A message whose values are replaced by what encodes them. -/
def encoders (msg : DynamicMessage) : DynMsg Encoder :=
  ⟨msg.descriptor, encodeFields msg.fields, encodeFields msg.extensions, msg.unknown, msg.pool⟩

theorem encode_eq (msg : DynamicMessage) : msg.encode = (encoders msg).encodeWith := by
  obtain ⟨descriptor, fields, extensions, unknown, pool⟩ := msg
  rw [DynMsg.encode, encodeMessage]
  rfl

theorem encodeFields_erase (fields : List (Int32 × Value)) (number : Int32) :
    encodeFields (SortedMap.erase fields number) = SortedMap.erase (encodeFields fields) number := by
  simp only [encodeFields_eq, SortedMap.erase, List.filter_map]
  rfl

theorem encodeFields_removeAll (numbers : List Int32) (fields : List (Int32 × Value)) :
    encodeFields (DynMsg.removeAll fields numbers) =
      DynMsg.removeAll (encodeFields fields) numbers := by
  induction numbers generalizing fields with
  | nil => rfl
  | cons number rest ih =>
    have later := ih (SortedMap.erase fields number)
    rw [encodeFields_erase] at later
    exact later

theorem encodeFields_insert (fields : List (Int32 × Value)) (number : Int32) (value : Value) :
    encodeFields (SortedMap.insert fields number value) =
      SortedMap.insert (encodeFields fields) number value.encodeField := by
  induction fields with
  | nil => simp [SortedMap.insert, SortedMap.upsert, encodeFields]
  | cons entry rest ih =>
    obtain ⟨other, held⟩ := entry
    simp only [SortedMap.insert] at ih
    simp only [SortedMap.insert, SortedMap.upsert, encodeFields]
    split
    · rfl
    · split
      · rfl
      · simp only [encodeFields, ih]

theorem encoders_setField (msg : DynamicMessage) (number : Int32) (value : Value) :
    encoders (msg.setField number value) = (encoders msg).setField number value.encodeField := by
  have same : (encoders msg).oneofOf number = msg.oneofOf number := rfl
  cases oneof : msg.oneofOf number with
  | none =>
    rw [oneof] at same
    simp only [DynMsg.setField, same, oneof]
    simp only [encoders, encodeFields_insert]
  | some index =>
    rw [oneof] at same
    simp only [DynMsg.setField, same, oneof]
    simp only [encoders, encodeFields_insert, encodeFields_removeAll]
    rfl

/-- What encodes the message of a map entry is that message, encoded. -/
theorem encoders_entryMessage (pool : DescriptorPool) (field : FieldDescriptorProto)
    (entry : Value × Value) :
    encoders (entryMessage pool field entry) =
      entryMessage pool field (entry.1.encodeField, entry.2.encodeField) := by
  simp only [entryMessage, encoders_setField]
  simp [encoders, DynMsg.new, encodeFields]

theorem writeEach_map {α β ε : Type} (f : α → β) (write : β → Outcome ε (List UInt8))
    (items : List α) : writeEach write (items.map f) = writeEach (fun item => write (f item)) items := by
  induction items with
  | nil => rfl
  | cons item rest ih => simp only [List.map_cons, writeEach, ih]

end Encoders

section Fields

variable {pool : DescriptorPool} {sub : DynamicMessage → Prop} {limits : DecoderLimits}
  {depth : UInt32} {descriptor : DescriptorProto} {field : FieldDescriptorProto} {number : Int32}
  {msg : DynamicMessage} {base : List (Int32 × Value)}

theorem number_of_find (found : descriptor.findFieldByNumber number = some field) :
    field.number = some number := by
  simpa using List.find?_some found

theorem fieldNumber_eq (numbered : field.number = some number) :
    fieldNumber field = number.toUInt32 := by
  rw [fieldNumber, numbered, Option.getD_some]

theorem declared_of_find (found : descriptor.findFieldByNumber number = some field) :
    declared pool descriptor number.toUInt32.toInt32 = some field := by
  simp [declared, found]

theorem isMapField_of_type (notMessage : field.type.getD .string ≠ .message) :
    isMapField pool field = false := by
  cases type : field.type with
  | none => simp [isMapField, type]
  | some t =>
    rw [type, Option.getD_some] at notMessage
    simp [isMapField, type, notMessage]

/-- An item of a declared field is the insertion of its value. -/
theorem Writes.inserted (word : UnknownValue) {val : Value} {before after : DynamicMessage}
    (numbered : Taggable number) (found : descriptor.findFieldByNumber number = some field)
    (kind : word.wireType = wireFor field word.wireType)
    (read : ∀ tag : Tag, declared pool descriptor tag.fieldNumber.toInt32 = some field →
      tag.wireType = word.wireType → Admits pool limits depth descriptor ⟨tag, word⟩ →
      interpret (DynMsg.decode pool) pool limits depth field word.wireType word = .ok val)
    (inserts : insertField before field val = .ok after) :
    Writes pool limits depth descriptor (writeValue (fieldNumber field) word) before after := by
  rw [fieldNumber_eq (number_of_find found)]
  refine Writes.item numbered.nonzero numbered.small (declared_of_find found) kind fun admitted => ?_
  have here : descriptor.findFieldByNumber number.toUInt32.toInt32 = some field := by
    simpa using found
  have interpreted := read _ (declared_of_find found) rfl admitted
  simp only [applyItem, here, interpreted, Outcome.ok_bind, inserts]

/-- The field after the elements read so far; nothing is stored before the first. -/
def heldBy (base : List (Int32 × Value)) (number : Int32) {α : Type} (wrap : List α → Value)
    (done : List α) : List (Int32 × Value) :=
  if done.isEmpty then base else base ++ [(number, wrap done)]

@[simp] theorem heldBy_nil {α : Type} {wrap : List α → Value} : heldBy base number wrap [] = base := rfl

theorem heldBy_nonempty {α : Type} {wrap : List α → Value} {done : List α} (nonempty : done ≠ []) :
    heldBy base number wrap done = base ++ [(number, wrap done)] := by
  simp [heldBy, nonempty]

/-- An element is appended to those read so far. -/
theorem upsert_heldBy {α : Type} {wrap : List α → Value} (below : ∀ entry ∈ base, entry.1 < number)
    (update : Option Value → Value) (done : List α) (part : α)
    (first : done = [] → update none = wrap [part])
    (later : update (some (wrap done)) = wrap (done ++ [part])) :
    SortedMap.upsert (heldBy base number wrap done) number update =
      heldBy base number wrap (done ++ [part]) := by
  rw [heldBy_nonempty (List.append_ne_nil_of_right_ne_nil _ (List.cons_ne_nil _ _))]
  cases done with
  | nil => rw [heldBy_nil, SortedMap.upsert_above below, first rfl, List.nil_append]
  | cons head tail =>
    rw [heldBy_nonempty (List.cons_ne_nil _ _), SortedMap.upsert_last below, later]

theorem get?_heldBy {α : Type} {wrap : List α → Value} (below : ∀ entry ∈ base, entry.1 < number)
    (done : List α) : SortedMap.get? (heldBy base number wrap done) number =
      if done.isEmpty then none else some (wrap done) := by
  have absent : SortedMap.get? base number = none := by
    apply SortedMap.get?_eq_none_iff.mpr
    intro entry member same
    have := below entry member
    grind
  have last (value : Value) : SortedMap.get? (base ++ [(number, value)]) number = some value := by
    have inserted := SortedMap.get?_insert_self base number value
    rwa [SortedMap.insert, SortedMap.upsert_above below] at inserted
  unfold heldBy
  split
  · exact absent
  · exact last _

/-- The values of a declared field are read back one after another. -/
theorem FieldConforms.writes (rereads : Rereads pool sub) {value : Value}
    (conforms : FieldConforms sub pool field value) (numbered : Taggable number)
    (found : descriptor.findFieldByNumber number = some field) (ofPool : msg.pool = pool)
    (below : ∀ entry ∈ base, entry.1 < number) :
    Writes pool limits depth descriptor (value.encodeField pool field)
      { msg with fields := base } { msg with fields := base ++ [(number, value)] } := by
  have isNumber := number_of_find found
  cases conforms with
  | single singular single =>
    obtain ⟨word, written, own, read⟩ := single.trip rereads
    rw [written]
    refine Writes.inserted word numbered found (wireFor_own own)
      (fun tag here _ admitted => read limits depth descriptor tag here admitted) ?_
    simp only [insertField, if_neg singular, isNumber, Option.getD_some, SortedMap.insert,
      SortedMap.upsert_above below]
  | @packed items packed =>
    obtain ⟨body, written, packs, read⟩ := packed.trip pool
    have kind : WireType.lengthDelimited = wireFor field .lengthDelimited := by
      rw [wireFor, if_pos packs]
    have notMap : isMapField msg.pool field = false := by
      refine isMapField_of_type fun isMessage => ?_
      have allowed := packed.packs
      rw [isMessage] at allowed
      cases allowed
    rw [written]
    refine Writes.inserted (.lengthDelimited body) numbered found kind
      (fun tag here same admitted => read limits depth descriptor tag here same admitted) ?_
    simp only [insertField, if_pos packed.label, notMap, Bool.false_eq_true, if_false, isNumber,
      Option.getD_some, SortedMap.upsert_above below, appendValue, Option.getD_none, List.nil_append]
  | @listed items label texts nonempty each =>
    have unpacked : packedAllowed (field.type.getD .string) = false := by
      rcases texts with same | same <;> rw [same] <;> rfl
    have notMap : isMapField msg.pool field = false := by
      refine isMapField_of_type fun isMessage => ?_
      rcases texts with same | same <;> rw [isMessage] at same <;> cases same
    have all : Writes pool limits depth descriptor
        (writeEach (fun item => do
          let tag ← writeTag (fieldNumber field) (fieldWireType (field.type.getD .string))
          let body ← writeScalarValue (field.type.getD .string) item
          .ok (tag ++ body)) items)
        { msg with fields := heldBy base number Value.list [] }
        { msg with fields := heldBy base number Value.list items } := Writes.each
      (fun done => { msg with fields := heldBy base number Value.list done })
      (fun done item rest whole => by
        obtain ⟨s, word, rfl, carries⟩ := each item (by simp [whole])
        obtain ⟨written, read⟩ := carries.trip pool
        simp only [Value.encodeField] at written
        rw [written]
        refine Writes.inserted word numbered found (wireFor_own carries.wireType)
          (fun tag here _ admitted => read limits depth descriptor tag here admitted) ?_
        simp only [insertField, if_pos label, notMap, Bool.false_eq_true, if_false, isNumber,
          Option.getD_some]
        rw [upsert_heldBy below _ done (Value.scalar s) (fun _ => rfl) rfl])
    rw [heldBy_nil, heldBy_nonempty nonempty] at all
    simp only [Value.encodeField, encodeList, unpacked, Bool.false_eq_true, if_false]
    exact all
  | @map entries label isMap nonempty each whole =>
    have isMessage : field.type.getD .string = .message := by
      simp only [isMapField, Bool.and_eq_true, decide_eq_true_eq] at isMap
      rw [isMap.1, Option.getD_some]
    have resolved : ∃ entryType, messageType pool field = some entryType := by
      simp only [isMapField, Bool.and_eq_true] at isMap
      cases named : field.typeName with
      | none => simp [named] at isMap
      | some name =>
        cases present : pool.lookupMessage name with
        | none => simp [named, present] at isMap
        | some entryType => exact ⟨entryType, by simp [messageType, named, present]⟩
    obtain ⟨entryType, resolved⟩ := resolved
    have ofType (entry : Value × Value) :
        messageType pool field = some (entryMessage pool field entry).descriptor := by
      have kept (msg : DynamicMessage) (number : Int32) (value : Value) :
          (msg.setField number value).descriptor = msg.descriptor := rfl
      rw [entryMessage, kept, kept, DynMsg.new, resolved, Option.getD_some]
    have all : Writes pool limits depth descriptor
        (writeEach (fun entry : Value × Value => do
          let bytes ← (entryMessage pool field (entry.1.encodeField, entry.2.encodeField)).encodeWith
          tagged field .lengthDelimited (writeLengthDelimited bytes)) entries)
        { msg with fields := heldBy base number Value.map [] }
        { msg with fields := heldBy base number Value.map entries } := Writes.each
      (fun done => { msg with fields := heldBy base number Value.map done })
      (fun done entry rest split => by
        have member : entry ∈ entries := by simp [split]
        obtain ⟨bytes, encoded, read⟩ :=
          interpret_body rereads (each entry member) (.inl isMessage) (ofType entry)
        rw [encode_eq, encoders_entryMessage] at encoded
        rw [encoded, Outcome.ok_bind]
        have kind : WireType.lengthDelimited = wireFor field .lengthDelimited :=
          wireFor_own (by rw [isMessage]; rfl)
        refine Writes.inserted (.lengthDelimited bytes) numbered found kind
          (fun tag here _ admitted => read limits depth descriptor tag here admitted) ?_
        have sameMap : isMapField msg.pool field = true := by rw [ofPool]; exact isMap
        have held : ((DynMsg.getField { msg with fields := heldBy base number Value.map done }
            number).getD (.map [])) = .map done := by
          simp only [DynMsg.getField, get?_heldBy below]
          split
          · rename_i empty
            rw [List.isEmpty_iff.mp empty, Option.getD_none]
          · rfl
        simp only [insertField, if_pos label, sameMap, if_true, isNumber, Option.getD_some, held,
          whole entry member, SortedMap.insert]
        rw [upsert_heldBy below _ done entry (fun empty => by rw [empty, List.nil_append]) rfl])
    rw [heldBy_nil, heldBy_nonempty nonempty] at all
    simpa only [Value.encodeField, encodeMap, encodePairs_eq, writeEach_map] using all

/-- An item of an extension replaces what is kept of it. -/
private theorem Writes.extended (word : UnknownValue) {val : Value} {ext : FieldDescriptorProto}
    (numbered : Taggable number) (undeclared : descriptor.findFieldByNumber number = none)
    (found : extensionFor pool descriptor number = some ext) (isNumber : ext.number = some number)
    (kind : word.wireType = wireFor ext word.wireType)
    (read : ∀ tag : Tag, declared pool descriptor tag.fieldNumber.toInt32 = some ext →
      tag.wireType = word.wireType → Admits pool limits depth descriptor ⟨tag, word⟩ →
      interpret (DynMsg.decode pool) pool limits depth ext word.wireType word = .ok val)
    (below : ∀ entry ∈ base, entry.1 < number) :
    Writes pool limits depth descriptor (writeValue (fieldNumber ext) word)
      { msg with extensions := base } { msg with extensions := base ++ [(number, val)] } := by
  have none : descriptor.findFieldByNumber number.toUInt32.toInt32 = none := by
    simpa using undeclared
  have some : extensionFor pool descriptor number.toUInt32.toInt32 = some ext := by
    simpa using found
  have here : declared pool descriptor number.toUInt32.toInt32 = .some ext := by
    rw [declared, none, some, Option.none_or]
  rw [fieldNumber_eq isNumber]
  refine Writes.item numbered.nonzero numbered.small here kind fun admitted => ?_
  have interpreted := read _ here rfl admitted
  simp only [applyItem, none, some, interpreted, Outcome.ok_bind, isNumber, Option.getD_some,
    SortedMap.insert, SortedMap.upsert_above below]

/-- The value of an extension is read back. -/
theorem ExtensionConforms.writes (msg : DynamicMessage) (rereads : Rereads pool sub) {value : Value}
    {ext : FieldDescriptorProto} (conforms : ExtensionConforms sub pool ext value)
    (numbered : Taggable number) (undeclared : descriptor.findFieldByNumber number = none)
    (found : extensionFor pool descriptor number = some ext) (isNumber : ext.number = some number)
    (below : ∀ entry ∈ base, entry.1 < number) :
    Writes pool limits depth descriptor (value.encodeField pool ext)
      { msg with extensions := base } { msg with extensions := base ++ [(number, value)] } := by
  cases conforms with
  | single single =>
    obtain ⟨word, written, own, read⟩ := single.trip rereads
    rw [written]
    exact Writes.extended word numbered undeclared found isNumber (wireFor_own own)
      (fun tag here _ admitted => read limits depth descriptor tag here admitted) below
  | @packed items packed =>
    obtain ⟨body, written, packs, read⟩ := packed.trip pool
    have kind : WireType.lengthDelimited = wireFor ext .lengthDelimited := by
      rw [wireFor, if_pos packs]
    rw [written]
    exact Writes.extended (.lengthDelimited body) numbered undeclared found isNumber kind
      (fun tag here same admitted => read limits depth descriptor tag here same admitted) below

/-- The entries in front of one in an ordered map have smaller keys. -/
private theorem below_of_sorted {entries done rest : List (Int32 × Value)} {entry : Int32 × Value}
    (sorted : SortedMap.Sorted entries) (whole : entries = done ++ entry :: rest) :
    ∀ earlier ∈ done, earlier.1 < entry.1 := by
  rw [whole] at sorted
  intro earlier member
  exact (List.pairwise_append.mp sorted).2.2 earlier member entry List.mem_cons_self

/-- What encodes one field of a message. -/
def writeField (msg : DynamicMessage) (entry : Int32 × Value) : ReflectResult (List UInt8) := do
  let field ← Outcome.ofOption (.unknownField entry.1) (msg.descriptor.findFieldByNumber entry.1)
  entry.2.encodeField msg.pool field

/-- What encodes one extension of a message. -/
def writeExtension (msg : DynamicMessage) (entry : Int32 × Value) : ReflectResult (List UInt8) := do
  let field ← Outcome.ofOption (.unknownField entry.1) (msg.pool.getExtension entry.1)
  entry.2.encodeField msg.pool field

theorem encode_parts (known : msg.unknown = .empty) :
    msg.encode = (writeEach (writeField msg) msg.fields >>= fun head =>
      writeEach (writeExtension msg) msg.extensions >>= fun tail => .ok (head ++ tail)) := by
  rw [encode_eq, DynMsg.encodeWith]
  simp only [encoders, encodeFields_eq, writeEach_map, known, UnknownFieldSet.encode,
    UnknownFieldSet.empty, writeEach, Outcome.ok_bind, List.append_nil]
  rfl

/-- What is written of a conforming message is read back, part after part. -/
theorem ConformsOver.writes (rereads : Rereads pool sub) (conforms : ConformsOver sub pool msg) :
    Writes pool limits depth msg.descriptor msg.encode (.new msg.descriptor pool) msg := by
  have fields : Writes pool limits depth msg.descriptor (writeEach (writeField msg) msg.fields)
      (.new msg.descriptor pool) { DynMsg.new msg.descriptor pool with fields := msg.fields } :=
    Writes.each (fun done => { DynMsg.new msg.descriptor pool with fields := done })
      fun done entry rest whole => by
        obtain ⟨numbered, field, found, conforms'⟩ := conforms.fields entry (by simp [whole])
        have below := below_of_sorted conforms.sorted whole
        rw [writeField, found, Outcome.ofOption_some, Outcome.ok_bind, conforms.ofPool]
        exact conforms'.writes rereads numbered found rfl below
  have extensions : Writes pool limits depth msg.descriptor
      (writeEach (writeExtension msg) msg.extensions)
      { DynMsg.new msg.descriptor pool with fields := msg.fields }
      { DynMsg.new msg.descriptor pool with fields := msg.fields, extensions := msg.extensions } :=
    Writes.each
      (fun done => { DynMsg.new msg.descriptor pool with fields := msg.fields, extensions := done })
      fun done entry rest whole => by
        obtain ⟨numbered, undeclared, ext, found, isNumber, conforms'⟩ :=
          conforms.extensions entry (by simp [whole])
        have registered : pool.getExtension entry.1 = some ext := by
          rw [extensionFor] at found
          split at found
          · exact found
          · cases found
        have below := below_of_sorted conforms.extSorted whole
        rw [writeExtension, conforms.ofPool, registered, Outcome.ofOption_some, Outcome.ok_bind]
        exact conforms'.writes { DynMsg.new msg.descriptor pool with fields := msg.fields } rereads
          numbered undeclared found isNumber below
  have whole := fields.append extensions
  have same : { DynMsg.new (V := Value) msg.descriptor pool with
      fields := msg.fields, extensions := msg.extensions } = msg := by
    rw [DynMsg.new, ← conforms.ofPool, ← conforms.unknown]
  rw [same] at whole
  rwa [encode_parts conforms.unknown]

end Fields

/-- Messages of every depth are read back. -/
theorem conforms_rereads (pool : DescriptorPool) (nesting : Nat) :
    Rereads pool (Conforms pool nesting) := by
  induction nesting with
  | zero => exact fun _ never => never.elim
  | succ nesting ih => exact fun msg conforms limits depth => conforms.writes ih

/-- A message that conforms to its descriptor is encoded, and wherever the bytes are within the
limits they are decoded to the same message. -/
theorem Conforms.decodes {pool : DescriptorPool} {nesting : Nat} {msg : DynamicMessage}
    (conforms : Conforms pool nesting msg) :
    ∃ bytes, msg.encode = .ok bytes ∧ ∀ r : Reader, r.AtStart → r.rest = bytes →
      WithinLimits pool r.limits r.depth msg.descriptor bytes →
      DynMsg.decode pool msg.descriptor r = .ok msg := by
  obtain ⟨bytes, encoded, _⟩ := (conforms_rereads pool nesting msg conforms .default 0).decode
  refine ⟨bytes, encoded, fun r start rest within => ?_⟩
  obtain ⟨bytes', encoded', decodes⟩ :=
    (conforms_rereads pool nesting msg conforms r.limits r.depth).decode
  obtain rfl : bytes = bytes' := by simpa using encoded.symm.trans encoded'
  exact decodes r start rfl rfl rest within

/-- Bytes within the default limits are decoded by a new reader over them. -/
theorem Conforms.decode_new {pool : DescriptorPool} {nesting : Nat} {msg : DynamicMessage}
    (conforms : Conforms pool nesting msg) {bytes : List UInt8} (encoded : msg.encode = .ok bytes)
    (within : WithinLimits pool .default 0 msg.descriptor bytes) :
    DynMsg.decode pool msg.descriptor (.new (.ofBytes bytes)) = .ok msg := by
  obtain ⟨bytes', encoded', decodes⟩ := conforms.decodes
  obtain rfl : bytes' = bytes := by simpa using encoded'.symm.trans encoded
  have sized : bytes'.length < 2 ^ 63 := by
    obtain ⟨_, _, total⟩ := within
    simp only [DecoderLimits.default, DecoderLimits.within, decide_eq_true_eq] at total
    omega
  exact decodes _ (Reader.withLimits_atStart _ _) (Slice.bytes_ofBytes sized) within

/-- A type with a number, names and a message of its own type. -/
def linkedType : DescriptorProto where
  name := some "Linked"
  field := [
    { name := some "id", number := some 1, label := some .optional, type := some .sint32 },
    { name := some "names", number := some 2, label := some .repeated, type := some .string },
    { name := some "next", number := some 3, label := some .optional, type := some .message,
      typeName := some ".p.Linked" }]

def linkedPool : DescriptorPool where
  messages := [("p.Linked", linkedType)]
  enums := []
  extensions := []
  syntaxName := "proto3"

/-- A message of the type. -/
def linked (fields : List (Int32 × Value)) : DynamicMessage :=
  { DynMsg.new linkedType linkedPool with fields }

/-- A number, a list of names and a message in the message. -/
def linkedSample : DynamicMessage :=
  linked [(1, .scalar (.i64 (Int32.toInt64 (-7)))), (2, .list [.scalar (.string "a")]),
    (3, .message (linked [(1, .scalar (.i64 (Int32.toInt64 9)))]))]

end TptProto.Reflect
