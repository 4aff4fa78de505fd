import TptProto.Core.MapInput
import TptProto.Core.FieldLoop
import TptProto.Foundation.SortedMap
import TptProto.Reflect.Nesting

/-! The map that the dynamic decoder makes of the entries in its input, and when the
message that has it encodes again. -/

namespace TptProto.Reflect

open TptProto.Foundation TptProto.Core TptProto.Descriptor

/-- A message of entries, with its two fields. -/
structure EntryType (entryType : DescriptorProto) (key value : FieldDescriptorProto) : Prop where
  fields : entryType.field = [key, value]
  keyNumber : key.number = some 1
  valueNumber : value.number = some 2
  keyLabel : key.label = some .optional
  valueLabel : value.label = some .optional
  keyOneof : key.oneofIndex = none
  valueOneof : value.oneofIndex = none
  extensions : entryType.extensionRange = []

/-- A map field of a message, with the type of its entries. -/
structure MapField (pool : DescriptorPool) (descriptor : DescriptorProto) (number : Int32)
    (field : FieldDescriptorProto) (entryType : DescriptorProto) : Prop where
  found : descriptor.findFieldByNumber number = some field
  label : field.label = some .repeated
  isMap : isMapField pool field = true
  type : messageType pool field = some entryType

/-- The default of a field's type: an enum's first value, an empty message, or a zero. -/
def zeroValue (pool : DescriptorPool) (field : FieldDescriptorProto) : Value :=
  match field.type.getD .string with
  | .message | .group => .message (.new ((messageType pool field).getD {}) pool)
  | .enum => .enum ((((field.typeName.bind pool.lookupEnum).bind fun e => e.value.head?).bind
      fun v => v.number).getD 0)
  | .int32 | .int64 | .sint32 | .sint64 | .sfixed32 | .sfixed64 => .scalar (.i64 0)
  | .uint32 | .uint64 | .fixed32 | .fixed64 => .scalar (.u64 0)
  | .float | .double => .scalar (.f64 0)
  | .bool => .scalar (.bool false)
  | .string => .scalar (.string "")
  | .bytes => .scalar (.bytes [])

/-- The types whose default is the integer zero that the decoder fills in. -/
def Signed (field : FieldDescriptorProto) : Prop :=
  field.type.getD .string ∈ [.int32, .int64, .sint32, .sint64, .sfixed32, .sfixed64]

instance (field : FieldDescriptorProto) : Decidable (Signed field) :=
  inferInstanceAs (Decidable (_ ∈ _))

/-- What a value of a field decodes to, below a cursor with these limits and depth. -/
def readValue (pool : DescriptorPool) (limits : DecoderLimits) (depth : UInt32)
    (field : FieldDescriptorProto) (value : UnknownValue) : ReflectResult Value :=
  interpret (DynMsg.decode pool) pool limits depth field value.wireType value

/-- What an entry gives for one half of it: its last value, or the type's default. -/
def halfValue (pool : DescriptorPool) (limits : DecoderLimits) (depth : UInt32)
    (field : FieldDescriptorProto) (last : Option UnknownValue) : ReflectResult Value :=
  match last with
  | none => .ok (zeroValue pool field)
  | some value => readValue pool limits depth field value

/-- The pair an entry denotes. -/
def entryPair (pool : DescriptorPool) (limits : DecoderLimits) (depth : UInt32)
    (key value : FieldDescriptorProto) (entry : EntrySource) : ReflectResult (Value × Value) := do
  let k ← halfValue pool limits depth key (entry.last 1)
  let v ← halfValue pool limits depth value (entry.last 2)
  .ok (k, v)

/-- The unknown fields that items leave in a set. -/
def leftOver (set : UnknownFieldSet) (items : List Item) : UnknownFieldSet :=
  (items.filter fun item => item.tag.fieldNumber ≠ 1 ∧ item.tag.fieldNumber ≠ 2).foldl
    (fun set item => set.insert item.tag.fieldNumber item.value) set

/-- A field has the wire type of its declared type, and its value can be decoded. -/
structure ReadableItem (pool : DescriptorPool) (limits : DecoderLimits) (depth : UInt32)
    (field : FieldDescriptorProto) (value : UnknownValue) : Prop where
  kind : value.wireType = fieldWireType (field.type.getD .string)
  decodes : ∃ result, readValue pool limits depth field value = .ok result

/-- Every key and value in an entry can be decoded, and its unknown fields can be kept. -/
structure Readable (pool : DescriptorPool) (limits : DecoderLimits) (depth : UInt32)
    (key value : FieldDescriptorProto) (entry : EntrySource) : Prop where
  keys : ∀ item ∈ entry.items, item.tag.fieldNumber = 1 →
    ReadableItem pool limits depth key item.value
  values : ∀ item ∈ entry.items, item.tag.fieldNumber = 2 →
    ReadableItem pool limits depth value item.value
  unknown : DecoderLimits.within limits.maxUnknownBytes (leftOver .empty entry.items).totalLen = true

/-- What is stored of a half: the value its bytes decode to, or nothing. -/
def Stores (pool : DescriptorPool) (limits : DecoderLimits) (depth : UInt32)
    (field : FieldDescriptorProto) (last : Option UnknownValue) (stored : Option Value) : Prop :=
  match last, stored with
  | none, none => True
  | some value, some result => readValue pool limits depth field value = .ok result
  | _, _ => False

section Entry

variable {pool : DescriptorPool} {limits : DecoderLimits} {depth : UInt32}
  {entryType : DescriptorProto} {key value : FieldDescriptorProto} {entry : EntrySource}

theorem EntryType.findKey (type : EntryType entryType key value) :
    entryType.findFieldByNumber 1 = some key := by
  simp [DescriptorProto.findFieldByNumber, type.fields, type.keyNumber]

theorem EntryType.findValue (type : EntryType entryType key value) :
    entryType.findFieldByNumber 2 = some value := by
  simp [DescriptorProto.findFieldByNumber, type.fields, type.keyNumber, type.valueNumber]

theorem EntryType.findOther (type : EntryType entryType key value) {number : Int32} (notKey : number ≠ 1)
    (notValue : number ≠ 2) : entryType.findFieldByNumber number = none := by
  simp [DescriptorProto.findFieldByNumber, type.fields, type.keyNumber, type.valueNumber, notKey.symm,
    notValue.symm]

theorem EntryType.keyNonzero (type : EntryType entryType key value) : fieldNumber key ≠ 0 := by
  rw [fieldNumber, type.keyNumber]
  decide

theorem EntryType.valueNonzero (type : EntryType entryType key value) : fieldNumber value ≠ 0 := by
  rw [fieldNumber, type.valueNumber]
  decide

theorem EntryType.noExtension (type : EntryType entryType key value) (number : Int32) :
    extensionFor pool entryType number = none := by
  simp [extensionFor, inExtensionRange, type.extensions]

/-- The message of an entry after some of its items. -/
private structure EntryState (pool : DescriptorPool) (limits : DecoderLimits) (depth : UInt32)
    (key value : FieldDescriptorProto) (before : List Item) (msg : DynamicMessage) : Prop where
  sorted : SortedMap.Sorted msg.fields
  keys : Stores pool limits depth key (lastValue 1 before) (msg.getField 1)
  values : Stores pool limits depth value (lastValue 2 before) (msg.getField 2)

private theorem insertField_singular {msg : DynamicMessage} {field : FieldDescriptorProto} {val : Value}
    {number : Int32} (label : field.label = some .optional) (numbered : field.number = some number) :
    insertField msg field val = .ok { msg with fields := SortedMap.insert msg.fields number val } := by
  simp [insertField, label, numbered]

theorem leftOver_mono (set : UnknownFieldSet) (items : List Item) :
    set.totalLen ≤ (leftOver set items).totalLen := by
  unfold leftOver
  generalize items.filter _ = kept
  induction kept generalizing set with
  | nil => exact Nat.le_refl _
  | cons item rest ih =>
    rw [List.foldl_cons]
    exact Nat.le_trans (Nat.le_add_right _ _) (ih (set.insert item.tag.fieldNumber item.value))

private theorem applyItem_entry (type : EntryType entryType key value) {before : List Item} {item : Item}
    {msg : DynamicMessage} (state : EntryState pool limits depth key value before msg)
    (isKey : item.tag.fieldNumber = 1 → ReadableItem pool limits depth key item.value)
    (isValue : item.tag.fieldNumber = 2 → ReadableItem pool limits depth value item.value)
    (kind : item.value.wireType = item.tag.wireType)
    (unknown : DecoderLimits.within limits.maxUnknownBytes (leftOver msg.unknown [item]).totalLen = true) :
    ∃ next, applyItem (DynMsg.decode pool) pool entryType limits depth msg item = .ok next ∧
      EntryState pool limits depth key value (before ++ [item]) next ∧
      next.unknown = leftOver msg.unknown [item] := by
  by_cases first : item.tag.fieldNumber = 1
  · obtain ⟨result, read⟩ := (isKey first).decodes
    rw [readValue, kind] at read
    refine ⟨{ msg with fields := SortedMap.insert msg.fields 1 result }, ?_, ⟨state.sorted.upsert _ _, ?_, ?_⟩, ?_⟩
    · simp only [applyItem, first]
      rw [show (1 : UInt32).toInt32 = 1 from rfl, type.findKey]
      simp only [read, Outcome.ok_bind, insertField_singular type.keyLabel type.keyNumber]
    · rw [lastValue_append, if_pos first, DynMsg.getField, SortedMap.get?_insert state.sorted, if_pos rfl]
      rw [← kind] at read
      exact read
    · rw [lastValue_append, if_neg (by rw [first]; decide), DynMsg.getField,
        SortedMap.get?_insert state.sorted, if_neg (by decide)]
      exact state.values
    · simp [leftOver, first]
  · by_cases second : item.tag.fieldNumber = 2
    · obtain ⟨result, read⟩ := (isValue second).decodes
      rw [readValue, kind] at read
      refine ⟨{ msg with fields := SortedMap.insert msg.fields 2 result }, ?_,
        ⟨state.sorted.upsert _ _, ?_, ?_⟩, ?_⟩
      · simp only [applyItem, second]
        rw [show (2 : UInt32).toInt32 = 2 from rfl, type.findValue]
        simp only [read, Outcome.ok_bind, insertField_singular type.valueLabel type.valueNumber]
      · rw [lastValue_append, if_neg first, DynMsg.getField, SortedMap.get?_insert state.sorted,
          if_neg (by decide)]
        exact state.keys
      · rw [lastValue_append, if_pos second, DynMsg.getField, SortedMap.get?_insert state.sorted,
          if_pos rfl]
        rw [← kind] at read
        exact read
      · simp [leftOver, second]
    · have kept : leftOver msg.unknown [item] = msg.unknown.insert item.tag.fieldNumber item.value := by
        simp [leftOver, first, second]
      rw [kept] at unknown ⊢
      refine ⟨{ msg with unknown := msg.unknown.insert item.tag.fieldNumber item.value }, ?_,
        ⟨state.sorted, ?_, ?_⟩, rfl⟩
      · have stored : msg.unknown.keep limits item =
            .ok (msg.unknown.insert item.tag.fieldNumber item.value) := keep_eq_ok_iff.mpr ⟨rfl, unknown⟩
        simp only [applyItem, type.findOther (fun same => first (toInt32_inj same))
          (fun same => second (toInt32_inj same)), type.noExtension, stored, Outcome.mapErr_ok,
          Outcome.ok_bind]
      · rw [lastValue_append, if_neg first]
        exact state.keys
      · rw [lastValue_append, if_neg second]
        exact state.values

private theorem foldlM_entry (type : EntryType entryType key value) {items before : List Item}
    {msg : DynamicMessage} (state : EntryState pool limits depth key value before msg)
    (keys : ∀ item ∈ items, item.tag.fieldNumber = 1 → ReadableItem pool limits depth key item.value)
    (values : ∀ item ∈ items, item.tag.fieldNumber = 2 → ReadableItem pool limits depth value item.value)
    (kinds : ∀ item ∈ items, item.value.wireType = item.tag.wireType)
    (unknown : DecoderLimits.within limits.maxUnknownBytes (leftOver msg.unknown items).totalLen = true) :
    ∃ final, items.foldlM (applyItem (DynMsg.decode pool) pool entryType limits depth) msg = .ok final ∧
      EntryState pool limits depth key value (before ++ items) final := by
  induction items generalizing before msg with
  | nil => exact ⟨msg, rfl, by rwa [List.append_nil]⟩
  | cons item rest ih =>
    have split : leftOver msg.unknown (item :: rest) = leftOver (leftOver msg.unknown [item]) rest := by
      unfold leftOver
      rw [← List.foldl_append, ← List.filter_append, List.singleton_append]
    rw [split] at unknown
    obtain ⟨next, applied, state', same⟩ := applyItem_entry type state
      (keys item List.mem_cons_self) (values item List.mem_cons_self) (kinds item List.mem_cons_self)
      (DecoderLimits.within_mono (leftOver_mono _ rest) unknown)
    obtain ⟨final, folded, held⟩ := ih state'
      (fun other member => keys other (List.mem_cons_of_mem _ member))
      (fun other member => values other (List.mem_cons_of_mem _ member))
      (fun other member => kinds other (List.mem_cons_of_mem _ member)) (by rw [same]; exact unknown)
    rw [List.append_assoc, List.singleton_append] at held
    exact ⟨final, by rw [List.foldlM_cons, applied]; exact folded, held⟩

private theorem wireFor_singular {field : FieldDescriptorProto} (label : field.label = some .optional)
    (wire : WireType) : wireFor field wire = fieldWireType (field.type.getD .string) := by
  rw [wireFor, if_neg]
  intro packs
  rw [Packs, label] at packs
  exact absurd packs.2.2.2 (by decide)

private theorem wireOf_other (type : EntryType entryType key value) {tag : Tag}
    (notKey : tag.fieldNumber ≠ 1) (notValue : tag.fieldNumber ≠ 2) :
    wireOf pool entryType tag = tag.wireType := by
  simp only [wireOf, declared, type.findOther (fun same => notKey (toInt32_inj same))
    (fun same => notValue (toInt32_inj same)), type.noExtension, Option.none_or]

private theorem wireOf_item (type : EntryType entryType key value)
    (readable : Readable pool limits depth key value entry) {item : Item} (member : item ∈ entry.items)
    (kind : item.value.wireType = item.tag.wireType) :
    wireOf pool entryType item.tag = item.tag.wireType := by
  by_cases first : item.tag.fieldNumber = 1
  · rw [← kind, (readable.keys item member first).kind, ← wireFor_singular type.keyLabel item.tag.wireType]
    simp only [wireOf, declared, first, show (1 : UInt32).toInt32 = 1 from rfl, type.findKey, Option.some_or]
  · by_cases second : item.tag.fieldNumber = 2
    · rw [← kind, (readable.values item member second).kind,
        ← wireFor_singular type.valueLabel item.tag.wireType]
      simp only [wireOf, declared, second, show (2 : UInt32).toInt32 = 2 from rfl, type.findValue,
        Option.some_or]
    · exact wireOf_other type first second

/-- An entry without groups decodes to a message that stores the last value of each half. -/
theorem decode_entry (type : EntryType entryType key value) (within : entry.Within limits)
    (short : entry.body.length < 2 ^ 63) (readable : Readable pool limits (depth + 1) key value entry)
    (groupless : Groupless entry.parts) :
    ∃ dm, DynMsg.decode pool entryType (Reader.childAt limits depth (.ofBytes entry.body)) = .ok dm ∧
      Stores pool limits (depth + 1) key (entry.last 1) (dm.getField 1) ∧
      Stores pool limits (depth + 1) value (entry.last 2) (dm.getField 2) := by
  have wire := EntrySource.itemsWire groupless
  have kinds := items_kind wire
  have body : (Reader.childAt limits depth (.ofBytes entry.body)).rest = entry.body := by
    rw [Reader.childAt_rest, Slice.bytes_ofBytes short]
  have solvent : (Reader.childAt limits depth (.ofBytes entry.body)).Solvent :=
    Reader.AtStart.solvent ⟨rfl, rfl, rfl⟩
  have fields := within.fields
  rw [EntrySource.parts_eq groupless, List.length_map] at fields
  have start : EntryState pool limits (depth + 1) key value [] (.new entryType pool) :=
    ⟨SortedMap.sorted_nil, trivial, trivial⟩
  obtain ⟨dm, folded, state⟩ := foldlM_entry type start readable.keys readable.values kinds
    readable.unknown
  refine ⟨dm, ?_, state.keys, state.values⟩
  rw [DynMsg.decode_eq, decodeWith_eq_ok_iff solvent, body]
  refine ⟨entry.items, wire.rewire fun item member =>
    (wireOf_item type readable member (kinds item member)).symm, ⟨within.lengths, ?_, ?_⟩, folded⟩
  · rw [body]
    simpa [Reader.childAt] using within.bytes
  · simpa [Reader.childAt] using fields

/-- An entry with a group does not decode. -/
theorem decode_entry_group (type : EntryType entryType key value) (within : entry.Within limits)
    (short : entry.body.length < 2 ^ 63) (readable : Readable pool limits (depth + 1) key value entry)
    (grouped : ¬ Groupless entry.parts) (dm : DynamicMessage) :
    DynMsg.decode pool entryType (Reader.childAt limits depth (.ofBytes entry.body)) ≠ .ok dm := by
  intro decoded
  have body : (Reader.childAt limits depth (.ofBytes entry.body)).rest = entry.body := by
    rw [Reader.childAt_rest, Slice.bytes_ofBytes short]
  rw [DynMsg.decode_eq, decodeWith_eq_ok_iff (Reader.AtStart.solvent ⟨rfl, rfl, rfl⟩), body] at decoded
  obtain ⟨read, readWire, _⟩ := decoded
  obtain ⟨items, number, later, parts⟩ := exists_first_group grouped
  have wire := entry.wire
  rw [parts] at wire
  have among : ∀ item ∈ items, item ∈ entry.items := fun item member => by
    rw [EntrySource.items, parts, List.filterMap_append, EntrySource.items_map]
    exact List.mem_append_left _ member
  obtain ⟨first, _, _, fieldWires, _⟩ := Sequence.split wire
  have kinds := items_kind (EntryBody.items fieldWires)
  obtain ⟨large, small⟩ := within.groups number (by rw [parts]; simp)
  refine EntryBody.not_items wire (fun item member =>
    wireOf_item type readable (among item member) (kinds item member)) (fun tag numbered => ?_) readWire
  rw [Nat.mod_eq_of_lt (by omega)] at numbered
  refine wireOf_other type (fun same => ?_) (fun same => ?_)
  · rw [same] at numbered
    change 1 = number at numbered
    omega
  · rw [same] at numbered
    change 2 = number at numbered
    omega

end Entry

/-- The message that has a map of these entries and nothing else. -/
def mapMessage (pool : DescriptorPool) (descriptor : DescriptorProto) (number : Int32)
    (entries : List (Value × Value)) : DynamicMessage :=
  { DynMsg.new descriptor pool with
    fields := match entries with
      | [] => []
      | entries => [(number, .map entries)] }

section Message

variable {pool : DescriptorPool} {descriptor entryType : DescriptorProto} {number : Int32}
  {field key value : FieldDescriptorProto} {limits : DecoderLimits} {depth : UInt32} {tag : Tag}

/-- What one entry adds to the map. -/
def decodeEntry (pool : DescriptorPool) (entryType : DescriptorProto) (limits : DecoderLimits)
    (depth : UInt32) (entry : EntrySource) : ReflectResult (Value × Value) := do
  let dm ← DynMsg.decode pool entryType (Reader.childAt limits depth (.ofBytes entry.body))
  .ok (entryOf (.message dm))

theorem mapMessage_getField (entries : List (Value × Value)) :
    ((mapMessage pool descriptor number entries).getField number).getD (.map []) = .map entries := by
  cases entries with
  | nil => rfl
  | cons entry rest => simp [mapMessage, DynMsg.getField, SortedMap.get?_cons]

theorem mapMessage_insert (entries : List (Value × Value)) (entry : Value × Value) :
    { mapMessage pool descriptor number entries with
      fields := SortedMap.insert (mapMessage pool descriptor number entries).fields number
        (.map (entries ++ [entry])) } = mapMessage pool descriptor number (entries ++ [entry]) := by
  cases entries with
  | nil => rfl
  | cons first rest => simp [mapMessage, SortedMap.insert, SortedMap.upsert]

theorem MapField.message (map : MapField pool descriptor number field entryType) :
    field.type = some .message := by
  have flagged := map.isMap
  simp only [isMapField, Bool.and_eq_true, decide_eq_true_eq] at flagged
  exact flagged.1

theorem MapField.number_eq (map : MapField pool descriptor number field entryType) :
    field.number = some number := by
  simpa using List.find?_some map.found

private theorem applyItem_map (map : MapField pool descriptor number field entryType)
    (numbered : tag.fieldNumber.toInt32 = number) (shallow : depth + 1 ≤ limits.maxDepth)
    (entry : EntrySource) (entries : List (Value × Value)) :
    applyItem (DynMsg.decode pool) pool descriptor limits depth
        (mapMessage pool descriptor number entries) (entryItem tag entry) = (do
      let pair ← decodeEntry pool entryType limits depth entry
      .ok (mapMessage pool descriptor number (entries ++ [pair]))) := by
  have opened : Reader.nestedAt limits depth (.ofBytes entry.body) =
      .ok (Reader.childAt limits depth (.ofBytes entry.body)) :=
    Reader.nestedAt_eq_ok_iff.mpr ⟨shallow, rfl⟩
  have inserted : ∀ val, insertField (mapMessage pool descriptor number entries) field val =
      .ok (mapMessage pool descriptor number (entries ++ [entryOf val])) := by
    intro val
    have flagged : isMapField (mapMessage pool descriptor number entries).pool field = true := map.isMap
    simp only [insertField, if_pos map.label, flagged, if_true, map.number_eq, Option.getD_some,
      mapMessage_getField, mapMessage_insert]
  simp only [applyItem, entryItem, numbered, map.found, interpret, map.message, Option.getD_some,
    true_or, if_true, map.type, Outcome.ofOption_some, Outcome.ok_bind, UnknownValue.payload, opened,
    Outcome.mapErr_ok, inserted, decodeEntry, bind_assoc]

private theorem foldlM_map (map : MapField pool descriptor number field entryType)
    (numbered : tag.fieldNumber.toInt32 = number) (shallow : depth + 1 ≤ limits.maxDepth)
    (sources : List EntrySource) (entries : List (Value × Value)) {final : DynamicMessage} :
    (sources.map (entryItem tag)).foldlM (applyItem (DynMsg.decode pool) pool descriptor limits depth)
        (mapMessage pool descriptor number entries) = .ok final ↔
      ∃ pairs, sources.mapM (decodeEntry pool entryType limits depth) = .ok pairs ∧
        final = mapMessage pool descriptor number (entries ++ pairs) := by
  induction sources generalizing entries with
  | nil => simp [eq_comm]
  | cons source rest ih =>
    rw [List.map_cons, List.foldlM_cons, List.mapM_cons, applyItem_map map numbered shallow]
    cases decodeEntry pool entryType limits depth source with
    | ok pair =>
      simp only [Outcome.ok_bind, ih, Outcome.bind_eq_ok, Outcome.pure_eq, Outcome.ok.injEq]
      constructor
      · rintro ⟨pairs, computed, rfl⟩
        exact ⟨pair :: pairs, ⟨pairs, computed, rfl⟩, by simp⟩
      · rintro ⟨_, ⟨pairs, computed, rfl⟩, rfl⟩
        exact ⟨pairs, computed, by simp⟩
    | err | panic | outOfFuel => simp

/-- Decoding entries of one map field decodes each of them and keeps all. -/
theorem decode_map (map : MapField pool descriptor number field entryType)
    (numbered : tag.fieldNumber.toInt32 = number) {r : Reader} {sources : List EntrySource}
    (input : MapInput r tag sources) {msg : DynamicMessage} :
    DynMsg.decode pool descriptor r = .ok msg ↔
      ∃ pairs, sources.mapM (decodeEntry pool entryType r.limits r.depth) = .ok pairs ∧
        msg = mapMessage pool descriptor number pairs := by
  have wires : ∀ item ∈ sources.map (entryItem tag), item.tag.wireType = wireOf pool descriptor item.tag := by
    intro item member
    obtain ⟨source, _, rfl⟩ := List.mem_map.mp member
    have unpacked : ¬ Packs field .lengthDelimited := fun packs => by
      have allowed := packs.2.1
      rw [map.message] at allowed
      exact absurd allowed (by decide)
    simp only [entryItem, wireOf, declared, numbered, map.found, Option.some_or, wireFor, input.kind,
      if_neg unpacked, map.message, Option.getD_some, fieldWireType]
  have wire := input.wire.rewire wires
  have folded : (sources.map (entryItem tag)).foldlM
        (applyItem (DynMsg.decode pool) pool descriptor r.limits r.depth) (.new descriptor pool) = .ok msg ↔
      ∃ pairs, sources.mapM (decodeEntry pool entryType r.limits r.depth) = .ok pairs ∧
        msg = mapMessage pool descriptor number pairs := foldlM_map map numbered input.shallow sources []
  rw [DynMsg.decode_eq, decodeWith_eq_ok_iff input.solvent]
  constructor
  · rintro ⟨items, wire', _, success⟩
    rw [wire'.unique (item_delimited _) wire] at success
    exact folded.mp success
  · intro success
    exact ⟨_, wire, input.affords, folded.mpr success⟩

/-- A pair can be written as an entry. -/
def PairEncodes (pool : DescriptorPool) (key value : FieldDescriptorProto) (pair : Value × Value) : Prop :=
  (∃ bytes, pair.1.encodeField pool key = .ok bytes) ∧ ∃ bytes, pair.2.encodeField pool value = .ok bytes

theorem encodePairs_eq (pairs : List (Value × Value)) :
    encodePairs pairs = pairs.map fun pair => (pair.1.encodeField, pair.2.encodeField) := by
  induction pairs with
  | nil => simp [encodePairs]
  | cons pair rest ih => simp [encodePairs, ih]

private theorem tagged_isOk {field : FieldDescriptorProto} (nonzero : fieldNumber field ≠ 0)
    {wireType : WireType} {body : List UInt8} : ∃ bytes, tagged field wireType body = .ok bytes := by
  simp [tagged, writeTag_eq nonzero]

private theorem entryMessage_encodes (type : EntryType entryType key value)
    (resolved : messageType pool field = some entryType) (encoders : Encoder × Encoder) :
    (∃ bytes, (entryMessage pool field encoders).encodeWith = .ok bytes) ↔
      (∃ bytes, encoders.1 pool key = .ok bytes) ∧ ∃ bytes, encoders.2 pool value = .ok bytes := by
  have made : entryMessage pool field encoders =
      { DynMsg.new entryType pool with fields := [(1, encoders.1), (2, encoders.2)] } := by
    simp [entryMessage, resolved, DynMsg.setField, DynMsg.oneofOf, DynMsg.new, type.findKey,
      type.findValue, type.keyOneof, type.valueOneof, SortedMap.insert, SortedMap.upsert]
  rw [made]
  simp only [DynMsg.encodeWith, DynMsg.new, writeEach, type.findKey, type.findValue,
    Outcome.ofOption_some, Outcome.ok_bind, Outcome.bind_eq_ok, Outcome.ok.injEq]
  constructor
  · rintro ⟨_, _, ⟨first, here, _, ⟨second, there, _⟩, _⟩, _⟩
    exact ⟨⟨first, here⟩, second, there⟩
  · rintro ⟨⟨first, here⟩, second, there⟩
    simp [here, there, UnknownFieldSet.encode, UnknownFieldSet.empty, writeEach]

/-- A message with a map encodes exactly if each of its pairs can be written. -/
theorem encode_map (map : MapField pool descriptor number field entryType)
    (type : EntryType entryType key value) (nonzero : number ≠ 0) (pairs : List (Value × Value)) :
    (∃ bytes, (mapMessage pool descriptor number pairs).encode = .ok bytes) ↔
      ∀ pair ∈ pairs, PairEncodes pool key value pair := by
  have numbered : fieldNumber field ≠ 0 := by
    rw [fieldNumber, map.number_eq, Option.getD_some]
    intro zero
    exact nonzero (by simpa using congrArg UInt32.toInt32 zero)
  have entries : (∃ bytes, encodeMap pool field (encodePairs pairs) = .ok bytes) ↔
      ∀ pair ∈ pairs, PairEncodes pool key value pair := by
    rw [encodeMap, writeEach_isOk_iff, encodePairs_eq, List.forall_mem_map]
    refine forall_congr' fun pair => forall_congr' fun _ => ?_
    rw [PairEncodes, ← entryMessage_encodes type map.type
      (pair.1.encodeField, pair.2.encodeField)]
    simp only [Outcome.bind_eq_ok]
    constructor
    · rintro ⟨_, bytes, here, _⟩
      exact ⟨bytes, here⟩
    · rintro ⟨bytes, here⟩
      obtain ⟨whole, written⟩ := tagged_isOk numbered
      exact ⟨whole, bytes, here, written⟩
  rw [← entries]
  cases pairs with
  | nil =>
    simp [mapMessage, DynMsg.new, DynMsg.encode, encodeMessage, encodeFields, DynMsg.encodeWith, writeEach,
      encodePairs, encodeMap, UnknownFieldSet.encode, UnknownFieldSet.empty]
  | cons pair rest =>
    simp only [mapMessage, DynMsg.new, DynMsg.encode, encodeMessage, encodeFields, DynMsg.encodeWith,
      writeEach, map.found, Outcome.ofOption_some, Outcome.ok_bind, Value.encodeField,
      UnknownFieldSet.encode, UnknownFieldSet.empty, Outcome.bind_eq_ok, Outcome.ok.injEq]
    constructor
    · rintro ⟨_, _, ⟨bytes, here, _⟩, _⟩
      exact ⟨bytes, here⟩
    · rintro ⟨bytes, here⟩
      simp [here]

private theorem readValue_plain (label : field.label = some .optional)
    (plain : ¬ (field.type.getD .string = .message ∨ field.type.getD .string = .group))
    {word : UnknownValue} {result : Value} (read : readValue pool limits depth field word = .ok result) :
    interpretScalar limits (field.type.getD .string) word = .ok result := by
  have unpacked : ¬ Packs field word.wireType := fun packs => by
    rw [Packs, label] at packs
    exact absurd packs.2.2.2 (by decide)
  simpa only [readValue, interpret, if_neg plain, if_neg unpacked] using read

private theorem interpretScalar_plain {t : FieldType} {word : UnknownValue} {dm : DynamicMessage} :
    interpretScalar limits t word ≠ .ok (.message dm) := by
  intro read
  unfold interpretScalar at read
  split at read <;> simp [Outcome.bind_eq_ok] at read

/-- A value read of a field can be written again, but for what a message holds. -/
theorem encodeField_read_iff (label : field.label = some .optional) (nonzero : fieldNumber field ≠ 0)
    {word : UnknownValue} {result : Value} (read : readValue pool limits depth field word = .ok result) :
    (∃ bytes, result.encodeField pool field = .ok bytes) ↔
      ∀ dm, result = .message dm → ∃ bytes, dm.encode = .ok bytes := by
  by_cases message : field.type.getD .string = .message ∨ field.type.getD .string = .group
  · simp only [readValue, interpret, if_pos message, Outcome.bind_eq_ok, Outcome.ok.injEq] at read
    obtain ⟨_, _, _, _, dm, _, rfl⟩ := read
    simp only [Value.encodeField, Outcome.bind_eq_ok, Value.message.injEq, forall_eq', DynMsg.encode]
    constructor
    · rintro ⟨_, bytes, here, _⟩
      exact ⟨bytes, here⟩
    · rintro ⟨bytes, here⟩
      obtain ⟨whole, written⟩ := tagged_isOk nonzero
      exact ⟨whole, bytes, here, written⟩
  · have scalar := readValue_plain label message read
    have written : ∃ bytes, result.encodeField pool field = .ok bytes := by
      cases type : field.type.getD .string <;> rw [type] at scalar <;> cases word <;>
        simp only [interpretScalar, Outcome.ok.injEq, reduceCtorEq, Outcome.bind_eq_ok] at scalar <;>
        first
        | (subst scalar
           simp [Value.encodeField, type, writeScalarValue, writeTag_eq nonzero, tagged])
        | (obtain ⟨_, _, _, _, rfl⟩ := scalar
           simp [Value.encodeField, type, writeScalarValue, writeTag_eq nonzero])
    refine ⟨fun _ dm same => ?_, fun _ => written⟩
    subst same
    exact absurd scalar interpretScalar_plain

/-- The filled-in zero can be written for the signed types only. -/
theorem encodeField_zero_iff (nonzero : fieldNumber field ≠ 0) :
    (∃ bytes, (Value.scalar (.i64 0)).encodeField pool field = .ok bytes) ↔ Signed field := by
  cases type : field.type.getD .string <;>
    simp [Value.encodeField, Signed, type, writeScalarValue, writeTag_eq nonzero]

/-- An entry without groups whose absent halves have a default that is the filled-in zero. -/
structure Fillable (key value : FieldDescriptorProto) (entry : EntrySource) : Prop where
  groupless : Groupless entry.parts
  key : entry.last 1 = none → Signed key
  value : entry.last 2 = none → Signed value

private theorem zeroValue_signed (signed : Signed field) : zeroValue pool field = .scalar (.i64 0) := by
  unfold zeroValue
  unfold Signed at signed
  cases type : field.type.getD .string <;> rw [type] at signed <;> first | rfl | simp at signed

/-- What is stored of a half, or the filled-in zero, is what the entry gives for it. -/
private theorem half_stored {last : Option UnknownValue} {stored : Option Value} {result : Value}
    (stores : Stores pool limits depth field last stored)
    (denotes : halfValue pool limits depth field last = .ok result)
    (fills : last = none → Signed field) : stored.getD (.scalar (.i64 0)) = result := by
  cases last with
  | none =>
    cases stored with
    | some _ => exact stores.elim
    | none =>
      rw [halfValue, zeroValue_signed (fills rfl)] at denotes
      exact Outcome.ok.inj denotes
  | some word =>
    cases stored with
    | none => exact stores.elim
    | some found => exact Outcome.ok.inj (stores.symm.trans denotes)

private theorem half_absent {last : Option UnknownValue} {stored : Option Value}
    (stores : Stores pool limits depth field last stored) (absent : last = none) : stored = none := by
  subst absent
  cases stored with
  | none => rfl
  | some _ => exact stores.elim

section Entry

variable {source : EntrySource}

/-- A fillable entry adds the pair it denotes. -/
private theorem decodeEntry_fillable (type : EntryType entryType key value) (within : source.Within limits)
    (short : source.body.length < 2 ^ 63) (readable : Readable pool limits (depth + 1) key value source)
    (fillable : Fillable key value source) {pair : Value × Value}
    (denotes : entryPair pool limits (depth + 1) key value source = .ok pair) :
    decodeEntry pool entryType limits depth source = .ok pair := by
  obtain ⟨dm, decoded, keys, values⟩ := decode_entry type within short readable fillable.groupless
  simp only [entryPair, Outcome.bind_eq_ok, Outcome.ok.injEq] at denotes
  obtain ⟨k, keyHalf, v, valueHalf, rfl⟩ := denotes
  rw [decodeEntry, decoded, Outcome.ok_bind, entryOf, half_stored keys keyHalf fillable.key,
    half_stored values valueHalf fillable.value]

/-- An entry whose pair can be written is fillable. -/
private theorem fillable_of_encodes (type : EntryType entryType key value) (within : source.Within limits)
    (short : source.body.length < 2 ^ 63) (readable : Readable pool limits (depth + 1) key value source)
    {pair : Value × Value} (decoded : decodeEntry pool entryType limits depth source = .ok pair)
    (encodes : PairEncodes pool key value pair) : Fillable key value source := by
  simp only [decodeEntry, Outcome.bind_eq_ok, Outcome.ok.injEq] at decoded
  obtain ⟨dm, decoded, rfl⟩ := decoded
  by_cases groupless : Groupless source.parts
  · obtain ⟨dm', decoded', keys, values⟩ := decode_entry type within short readable groupless
    obtain rfl := Outcome.ok.inj (decoded.symm.trans decoded')
    refine ⟨groupless, fun absent => ?_, fun absent => ?_⟩
    · have written := encodes.1
      rw [entryOf, half_absent keys absent] at written
      exact (encodeField_zero_iff type.keyNonzero).mp written
    · have written := encodes.2
      rw [entryOf, half_absent values absent] at written
      exact (encodeField_zero_iff type.valueNonzero).mp written
  · exact absurd decoded (decode_entry_group type within short readable groupless dm)

private theorem half_key (label : field.label = some .optional) {t : FieldType}
    (kind : field.type = some t) (keyType : t.IsKey) {last : Option UnknownValue} {dm : DynamicMessage}
    (fills : last = none → Signed field) : halfValue pool limits depth field last ≠ .ok (.message dm) := by
  intro denotes
  cases last with
  | none =>
    rw [halfValue, zeroValue_signed (fills rfl)] at denotes
    cases denotes
  | some word =>
    have plain : ¬ (field.type.getD .string = .message ∨ field.type.getD .string = .group) := by
      rw [kind, Option.getD_some]
      rintro (same | same)
      · exact keyType.2.2.2.2.1 same
      · exact keyType.2.2.2.2.2 same
    exact interpretScalar_plain (readValue_plain label plain denotes)

private theorem half_encodes (label : field.label = some .optional) (nonzero : fieldNumber field ≠ 0)
    {last : Option UnknownValue} {result : Value}
    (denotes : halfValue pool limits depth field last = .ok result) (fills : last = none → Signed field)
    (inner : ∀ dm, result = .message dm → ∃ bytes, dm.encode = .ok bytes) :
    ∃ bytes, result.encodeField pool field = .ok bytes := by
  cases last with
  | none =>
    rw [halfValue, zeroValue_signed (fills rfl)] at denotes
    cases denotes
    exact (encodeField_zero_iff nonzero).mpr (fills rfl)
  | some word => exact (encodeField_read_iff label nonzero denotes).mpr inner

end Entry

/-- Decoding the input succeeds with the map that the pairs make, and the message encodes. -/
def DecodesMap (pool : DescriptorPool) (descriptor : DescriptorProto) (r : Reader) (number : Int32)
    (claimed : List (Value × Value)) : Prop :=
  ∃ msg entries bytes, DynMsg.decode pool descriptor r = .ok msg ∧
    (msg.getField number).getD (.map []) = .map entries ∧ Latest entries claimed ∧
    DynMsg.encode msg = .ok bytes

/-- The dynamic decoder makes the map of its entries exactly if every entry is fillable, no
key is given twice and the messages among the values encode. -/
theorem decodesMap_iff (map : MapField pool descriptor number field entryType)
    (type : EntryType entryType key value) {t : FieldType} (keyKind : key.type = some t)
    (keyType : t.IsKey) (numbered : tag.fieldNumber.toInt32 = number) {r : Reader}
    {sources : List EntrySource} (input : MapInput r tag sources)
    (readable : ∀ source ∈ sources, Readable pool r.limits (r.depth + 1) key value source)
    {claimed : List (Value × Value)}
    (denotes : sources.mapM (entryPair pool r.limits (r.depth + 1) key value) = .ok claimed) :
    DecodesMap pool descriptor r number claimed ↔
      (∀ source ∈ sources, Fillable key value source) ∧ (claimed.map Prod.fst).Nodup ∧
        ∀ pair ∈ claimed, ∀ dm, pair.2 = .message dm → ∃ bytes, DynMsg.encode dm = .ok bytes := by
  have nonzero : number ≠ 0 := by
    rintro rfl
    exact tag.nonzero (toInt32_inj numbered)
  have filled : (∀ source ∈ sources, Fillable key value source) →
      sources.mapM (decodeEntry pool entryType r.limits r.depth) = .ok claimed := by
    intro fillable
    rw [← denotes]
    refine Outcome.mapM_congr fun source member => ?_
    obtain ⟨pair, _, here⟩ := (Outcome.mapM_eq_ok_mem denotes).1 source member
    rw [here]
    exact decodeEntry_fillable type (input.within source member) (input.short member)
      (readable source member) (fillable source member) here
  constructor
  · rintro ⟨msg, entries, bytes, decoded, stored, latest, encoded⟩
    obtain ⟨pairs, computed, rfl⟩ := (decode_map map numbered input).mp decoded
    have encodes := (encode_map map type nonzero pairs).mp ⟨bytes, encoded⟩
    have fillable : ∀ source ∈ sources, Fillable key value source := fun source member => by
      obtain ⟨pair, present, here⟩ := (Outcome.mapM_eq_ok_mem computed).1 source member
      exact fillable_of_encodes type (input.within source member) (input.short member)
        (readable source member) here (encodes pair present)
    obtain rfl := Outcome.ok.inj (computed.symm.trans (filled fillable))
    rw [mapMessage_getField] at stored
    cases stored
    refine ⟨fillable, latest.distinct, fun pair member dm same => ?_⟩
    obtain ⟨bytes, written⟩ := (encodes pair member).2
    rw [same] at written
    simp only [Value.encodeField, Outcome.bind_eq_ok] at written
    obtain ⟨inner, here, _⟩ := written
    exact ⟨inner, here⟩
  · rintro ⟨fillable, distinct, inner⟩
    have encodes : ∀ pair ∈ claimed, PairEncodes pool key value pair := by
      intro pair member
      obtain ⟨source, present, here⟩ := (Outcome.mapM_eq_ok_mem denotes).2 pair member
      simp only [entryPair, Outcome.bind_eq_ok, Outcome.ok.injEq] at here
      obtain ⟨k, keyHalf, v, valueHalf, rfl⟩ := here
      refine ⟨half_encodes type.keyLabel type.keyNonzero keyHalf (fillable source present).key
        fun dm same => ?_, half_encodes type.valueLabel type.valueNonzero valueHalf
        (fillable source present).value (inner _ member)⟩
      subst same
      exact absurd keyHalf (half_key type.keyLabel keyKind keyType (fillable source present).key)
    obtain ⟨bytes, encoded⟩ := (encode_map map type nonzero claimed).mpr encodes
    exact ⟨_, claimed, bytes, (decode_map map numbered input).mpr ⟨claimed, filled fillable, rfl⟩,
      mapMessage_getField claimed, latest_self_iff.mpr distinct, encoded⟩

end Message

end TptProto.Reflect
