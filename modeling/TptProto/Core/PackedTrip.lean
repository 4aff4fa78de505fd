import TptProto.Core.MapEntry
import TptProto.Core.Occurrence
import TptProto.Core.Chunks

/-! Written packed fields and map entries are read back, whatever follows them, if the limits
of the reader have room for them. -/

namespace TptProto.Core

open TptProto.Foundation

/-- The limits of a reader have room for a length-delimited field and for what opens its body. -/
structure Reader.HasRoom (r : Reader) (bytes body : List UInt8) : Prop where
  bytes : DecoderLimits.within r.limits.maxBytes (r.bytesRead + bytes.length) = true
  fields : DecoderLimits.within r.limits.maxFields (r.fieldCount + 1) = true
  length : DecoderLimits.within r.limits.maxLengthDelimited body.length = true
  depth : r.depth.toNat + 1 ≤ r.limits.maxDepth.toNat

/-- Reading the tag of a field and then its value gives the value and consumes just the field.
A writer keeps 29 bits of the number. -/
def ReadsField {α : Type} (field : UInt32) (bytes : List UInt8)
    (read : Reader → Result (α × Reader)) (value : α) (r : Reader) : Prop :=
  ∃ tag middle r', r.readTag = .ok (tag, middle) ∧ tag.fieldNumber.toNat = field.toNat % 2 ^ 29 ∧
    tag.wireType = .lengthDelimited ∧ read middle = .ok (value, r') ∧ r.Passes bytes 1 r'

/-- A field of a number and the bytes of its value, in any of their encodings. -/
structure KeyedFrame (number : UInt32) where
  item : Item
  tagBytes : List UInt8
  untagged : List UInt8
  numbered : item.tag.fieldNumber = number
  kind : item.value.wireType = item.tag.wireType
  tagWire : TagBytes item.tag tagBytes
  wire : ValueBytes item.value untagged

def KeyedFrame.bytes {number : UInt32} (frame : KeyedFrame number) : List UInt8 :=
  frame.tagBytes ++ frame.untagged

variable {field : UInt32}

/-- The tag that is written, as a reader takes it. -/
private theorem written_tag {ε : Type} (nonzero : field.toNat % 2 ^ 29 ≠ 0) (wireType : WireType) :
    ∃ tag bytes, writeTag (ε := ε) field wireType = .ok bytes ∧ TagBytes tag bytes ∧
      tag.fieldNumber.toNat = field.toNat % 2 ^ 29 ∧ tag.wireType = wireType := by
  have low := wireType.asU8_lt
  have written : field ≠ 0 := by
    rintro rfl
    exact nonzero rfl
  have number : (UInt32.ofNat (field.toNat % 2 ^ 29)).toNat = field.toNat % 2 ^ 29 := by
    rw [UInt32.toNat_ofNat']
    omega
  have read : UInt32.ofNat (field.toNat % 2 ^ 29) ≠ 0 := by
    intro zero
    rw [zero] at number
    exact nonzero number.symm
  have made : Tag.new field wireType = some ⟨field, wireType, written⟩ :=
    Tag.new_eq_some.mpr ⟨rfl, rfl⟩
  refine ⟨⟨_, wireType, read⟩, Tag.encode ⟨field, wireType, written⟩, by rw [writeTag, made],
    ⟨_, wireVarint_encodeVarint _, ?_, ?_⟩, number, rfl⟩
  · simp only [Tag.raw_toNat, number]
    omega
  · simp only [Tag.raw_toNat]
    omega

/-- The body of a written field is read, by a cursor that the field's own bytes are behind. -/
private theorem reads_body {r : Reader} {tag : Tag} {tagBytes body rest : List UInt8}
    (wire : TagBytes tag tagBytes) (solvent : r.Solvent)
    (here : r.rest = (tagBytes ++ writeLengthDelimited body) ++ rest)
    (room : r.HasRoom (tagBytes ++ writeLengthDelimited body) body) :
    ∃ middle slice r', r.readTag = .ok (tag, middle) ∧
      middle.readLengthDelimited = .ok (slice, r') ∧ slice.bytes = body ∧
      r.Passes (tagBytes ++ writeLengthDelimited body) 1 r' := by
  have long := wire.length_pos
  have inside := Reader.inside_of_rest here
  have short : body.length < 2 ^ 63 := by
    have bound := r.buf.length_lt
    have : r.buf.length = r.buf.bytes.length := rfl
    simp only [writeLengthDelimited, List.length_append] at inside
    omega
  have covered : 1 ≤ (tagBytes ++ writeLengthDelimited body).length := by
    rw [List.length_append]
    omega
  obtain ⟨r', whole⟩ := Reader.exists_passes solvent here covered room.bytes room.fields
  have parts : r.Passes (tagBytes ++ writeLengthDelimited body) (1 + 0) r' := whole
  obtain ⟨middle, first, later⟩ := parts.split solvent long (Nat.zero_le _)
  have fits : (UnknownValue.lengthDelimited body).Sized := Nat.lt_trans short (by decide)
  refine ⟨middle, ⟨body, short⟩, r', (Reader.readTag_passes solvent).mpr ⟨_, wire, first⟩,
    (Reader.readBody_passes first.solvent).mpr ⟨_, valueBytes_bytes fits, ?_, later⟩, rfl, whole⟩
  rw [first.moved.limits]
  exact room.length

/-- The limits of a reader with room admit its body in a nested reader. -/
private theorem nested_of_room {r r' : Reader} {bytes body : List UInt8} {slice : Slice}
    (room : r.HasRoom bytes body) (passed : r.Passes bytes 1 r') (same : slice.bytes = body) :
    r'.nested slice = .ok (Reader.childAt r.limits r.depth (.ofBytes body)) := by
  have deep := room.depth
  have bound := r.limits.maxDepth.toNat_lt
  refine Reader.nested_eq_ok_iff.mpr ⟨?_, ?_⟩
  · rw [passed.moved.depth, passed.moved.limits, UInt32.le_iff_toNat_le, UInt32.toNat_add]
    simp only [UInt32.toNat_one]
    omega
  · rw [← same, Slice.ofBytes_bytes, Reader.child, passed.moved.limits, passed.moved.depth]

section Packed

variable {α ε : Type} {write : α → List UInt8} {carry : α → UnknownValue} {take : UnknownValue → α}
  {wireType : WireType}

variable (carry) in
/-- Joined elements are read back one by one. -/
private theorem elements_read (kind : ∀ value, (carry value).wireType = wireType)
    (fixed : wireType ≠ .lengthDelimited) (taken : ∀ value, take (carry value) = value)
    {limits : DecoderLimits} {depth : UInt32} {values : List α}
    (short : (values.flatMap fun value => (carry value).bytes).length < 2 ^ 63)
    (budget : DecoderLimits.within limits.maxBytes
      (values.flatMap fun value => (carry value).bytes).length = true) :
    Reader.readAll (readElement (ε := Error) id wireType fun _ value => .ok (take value))
        (Reader.childAt limits depth (.ofBytes (values.flatMap fun value => (carry value).bytes))) =
      .ok values := by
  have words : values.flatMap (fun value => (carry value).bytes) =
      (values.map carry).flatMap UnknownValue.bytes := by
    rw [List.flatMap_map]
  have sized : ∀ value ∈ values.map carry, value.Sized := by
    intro value member
    obtain ⟨element, _, rfl⟩ := List.mem_map.mp member
    have kindHere := kind element
    cases shape : carry element with
    | lengthDelimited => exact absurd (by rw [← kindHere, shape]; rfl) fixed
    | varint | fixed32 | fixed64 => trivial
  have kinds : ∀ value ∈ values.map carry, value.wireType = wireType :=
    List.forall_mem_map.mpr fun value _ => kind value
  have wire := elements_bytes kinds sized
  rw [words] at short budget ⊢
  rw [readAll_elements wire fixed short budget fun _ _ => rfl, List.map_map]
  congr 1
  exact List.map_id'' taken values

private def word : UnknownValue → UInt64
  | .varint bits | .fixed64 bits => bits
  | _ => 0

private def word32 : UnknownValue → UInt32
  | .fixed32 bits => bits
  | _ => 0

private theorem readVarint_element :
    Reader.readVarint = readElement id .varint fun _ value => .ok (word value) := by
  funext r
  simp only [readElement, readUnknownValue, Outcome.mapErr_id]
  cases r.readVarint <;> rfl

private theorem readFixed32_element :
    Reader.readFixed32 = readElement id .fixed32 fun _ value => .ok (word32 value) := by
  funext r
  simp only [readElement, readUnknownValue, Outcome.mapErr_id]
  cases r.readFixed32 <;> rfl

private theorem readFixed64_element :
    Reader.readFixed64 = readElement id .fixed64 fun _ value => .ok (word value) := by
  funext r
  simp only [readElement, readUnknownValue, Outcome.mapErr_id]
  cases r.readFixed64 <;> rfl

private theorem flatMap_width {width : Nat} (each : ∀ value, (write value).length = width)
    (values : List α) : (values.flatMap write).length % width = 0 := by
  induction values with
  | nil => simp
  | cons value rest ih =>
    rw [List.flatMap_cons, List.length_append, each, Nat.add_mod_left]
    exact ih

/-- A packed field is read where its elements are read from its body. -/
private theorem packed_reads {r : Reader} {tag : Tag} {tagBytes rest : List UInt8} {values : List α}
    (readOne : Reader → Result (α × Reader)) {read : Reader → Result (List α × Reader)}
    (number : tag.fieldNumber.toNat = field.toNat % 2 ^ 29) (kind : tag.wireType = .lengthDelimited)
    (wire : TagBytes tag tagBytes) (solvent : r.Solvent)
    (here : r.rest = (tagBytes ++ writeLengthDelimited (values.flatMap write)) ++ rest)
    (room : r.HasRoom (tagBytes ++ writeLengthDelimited (values.flatMap write)) (values.flatMap write))
    (reads : ∀ {middle r' sub : Reader} {body : Slice}, middle.readLengthDelimited = .ok (body, r') →
      body.bytes = values.flatMap write → r'.nested body = .ok sub →
      Reader.readAll readOne sub = .ok values → read middle = .ok (values, r'))
    (elements : (values.flatMap write).length < 2 ^ 63 →
      DecoderLimits.within r.limits.maxBytes (values.flatMap write).length = true →
      Reader.readAll readOne (Reader.childAt r.limits r.depth (.ofBytes (values.flatMap write))) =
        .ok values) :
    ReadsField field (tagBytes ++ writeLengthDelimited (values.flatMap write)) read values r := by
  obtain ⟨middle, slice, r', readTag, readBody, same, passed⟩ := reads_body wire solvent here room
  have short : (values.flatMap write).length < 2 ^ 63 := by
    rw [← same]
    exact slice.length_lt
  have budget : DecoderLimits.within r.limits.maxBytes (values.flatMap write).length = true := by
    refine DecoderLimits.within_mono ?_ room.bytes
    simp only [writeLengthDelimited, List.length_append]
    omega
  exact ⟨tag, middle, r', readTag, number, kind,
    reads readBody same (nested_of_room room passed same) (elements short budget), passed⟩

end Packed

section Entry

private theorem more_of_rest {r : Reader} {bytes rest : List UInt8} (here : r.rest = bytes ++ rest)
    (long : 0 < bytes.length) : (!r.isEmpty) = true := by
  have inside := Reader.inside_of_rest here
  have filled : r.isEmpty = false := (Reader.isEmpty_eq_false_iff r).mpr (by omega)
  rw [filled]
  rfl

/-- A fresh cursor over a key frame and a value frame ends with the bytes of both values. -/
private theorem entry_drained {key : KeyedFrame 1} {value : KeyedFrame 2} {limits : DecoderLimits}
    (depth : UInt32) (short : (key.bytes ++ value.bytes).length < 2 ^ 63)
    (budget : DecoderLimits.within limits.maxBytes (key.bytes ++ value.bytes).length = true)
    (fields : DecoderLimits.within limits.maxFields 2 = true) (fitsKey : key.item.value.Fits limits)
    (fitsValue : value.item.value.Fits limits) :
    ∃ keySlice valueSlice last,
      (Reader.childAt limits depth (.ofBytes (key.bytes ++ value.bytes))).drain Reader.mapEntryStep
        (none, none) = .ok ((some keySlice, some valueSlice), last) ∧
      keySlice.bytes = key.untagged ∧ valueSlice.bytes = value.untagged := by
  have start : (Reader.childAt limits depth (.ofBytes (key.bytes ++ value.bytes))).rest =
      key.tagBytes ++ (key.untagged ++ value.bytes) := by
    rw [Reader.childAt_rest, Slice.bytes_ofBytes short, KeyedFrame.bytes, List.append_assoc]
  obtain ⟨rawKey, wireKey, numberKey, kindKey⟩ := key.tagWire
  obtain ⟨rawValue, wireValue, numberValue, kindValue⟩ := value.tagWire
  have longKey := wireKey.length_pos
  have longValue := wireValue.length_pos
  simp only [KeyedFrame.bytes, List.length_append] at budget
  obtain ⟨keySlice, r₁, first, sameKey, passed⟩ := Reader.mapEntryStep_reads
    (r := Reader.childAt limits depth (.ofBytes (key.bytes ++ value.bytes)))
    ⟨Nat.le_refl _, Nat.le_refl _⟩ start wireKey numberKey kindKey key.kind key.wire fitsKey
    (DecoderLimits.within_mono (by simp only [Reader.childAt]; omega) budget)
    (DecoderLimits.within_mono (show 0 + 1 ≤ 2 by decide) fields) (none, none)
  have there : r₁.rest = value.tagBytes ++ (value.untagged ++ []) := by
    rw [passed.rest_eq, start, ← List.append_assoc, ← List.length_append, List.drop_left,
      KeyedFrame.bytes, List.append_nil]
  have counted := passed.fieldCount
  have read := passed.bytesRead
  simp only [Reader.childAt] at counted read
  obtain ⟨valueSlice, r₂, second, sameValue, passed'⟩ := Reader.mapEntryStep_reads
    (passed.tracked ⟨Nat.le_refl _, Nat.le_refl _⟩ (by omega)) there wireValue numberValue kindValue
    value.kind value.wire (passed.limits ▸ fitsValue)
    (by rw [passed.limits]; exact DecoderLimits.within_mono (by omega) budget)
    (by rw [passed.limits, counted]; exact fields)
    (Reader.keep key.item.tag.fieldNumber keySlice (none, none))
  rw [key.numbered] at first second
  rw [value.numbered] at second
  have ends : r₂.rest = [] := by
    rw [passed'.rest_eq, there, ← List.append_assoc, ← List.length_append, List.drop_left]
  refine ⟨keySlice, valueSlice, r₂, ?_, sameKey, sameValue⟩
  obtain ⟨visited, path, size⟩ : ∃ visited, Path (fun state => !state.2.isEmpty) Reader.mapEntryStep
      ((none, none), Reader.childAt limits depth (.ofBytes (key.bytes ++ value.bytes))) visited
      ((some keySlice, some valueSlice), r₂) ∧ visited.length = 2 :=
    ⟨_, .step (more_of_rest start longKey) first (.step (more_of_rest there longValue) second .here), rfl⟩
  refine path.loop_finished ?_ ?_
  · rw [(Reader.isEmpty_iff r₂).mpr ends]
    rfl
  · rw [size, ← Reader.rest_length, start]
    simp only [List.length_append, KeyedFrame.bytes]
    omega

end Entry

/-- For every field number that stays nonzero in 29 bits: the packed readers give back every list
written by their writers, and the entry reader the untagged bytes of every key and value frame. -/
theorem packed_readBack (field : UInt32) (nonzero : field.toNat % 2 ^ 29 ≠ 0) :
    (∀ values : List UInt64, ∃ bytes, encodePackedVarint (ε := Error) field values = .ok bytes ∧
      ∀ (r : Reader) (rest : List UInt8), r.Solvent → r.rest = bytes ++ rest →
        r.HasRoom bytes (values.flatMap encodeVarint) →
        ReadsField field bytes (Reader.readPackedVarint Reader.readVarint) values r) ∧
    (∀ values : List UInt32, ∃ bytes, encodePackedFixed32 (ε := Error) field values = .ok bytes ∧
      ∀ (r : Reader) (rest : List UInt8), r.Solvent → r.rest = bytes ++ rest →
        r.HasRoom bytes (values.flatMap writeFixed32) →
        ReadsField field bytes Reader.readPackedFixed32 values r) ∧
    (∀ values : List UInt64, ∃ bytes, encodePackedFixed64 (ε := Error) field values = .ok bytes ∧
      ∀ (r : Reader) (rest : List UInt8), r.Solvent → r.rest = bytes ++ rest →
        r.HasRoom bytes (values.flatMap writeFixed64) →
        ReadsField field bytes Reader.readPackedFixed64 values r) ∧
    ∀ (key : KeyedFrame 1) (value : KeyedFrame 2), ∃ bytes,
      encodeMapEntry (ε := Error) field key.bytes value.bytes = .ok bytes ∧
      ∀ (r : Reader) (rest : List UInt8), r.Solvent → r.rest = bytes ++ rest →
        r.HasRoom bytes (key.bytes ++ value.bytes) →
        DecoderLimits.within r.limits.maxFields 2 = true → key.item.value.Fits r.limits →
        value.item.value.Fits r.limits →
        ∃ keySlice valueSlice : Slice,
          ReadsField field bytes Reader.decodeMapEntryFrames (keySlice, valueSlice) r ∧
          keySlice.bytes = key.untagged ∧ valueSlice.bytes = value.untagged := by
  obtain ⟨tag, tagBytes, written, wire, number, kind⟩ :=
    written_tag (ε := Error) nonzero .lengthDelimited
  refine ⟨fun values => ⟨tagBytes ++ writeLengthDelimited (values.flatMap encodeVarint), ?_,
      fun r rest solvent here room => ?_⟩,
    fun values => ⟨tagBytes ++ writeLengthDelimited (values.flatMap writeFixed32), ?_,
      fun r rest solvent here room => ?_⟩,
    fun values => ⟨tagBytes ++ writeLengthDelimited (values.flatMap writeFixed64), ?_,
      fun r rest solvent here room => ?_⟩,
    fun key value => ⟨tagBytes ++ writeLengthDelimited (key.bytes ++ value.bytes), ?_,
      fun r rest solvent here room fields fitsKey fitsValue => ?_⟩⟩
  · rw [encodePackedVarint, encodePacked, written]
    rfl
  · refine packed_reads Reader.readVarint number kind wire solvent here room
      (fun read _ opened all => ?_) fun short budget => ?_
    · simp only [Reader.readPackedVarint, read, Outcome.ok_bind, opened, all]
    · rw [readVarint_element]
      exact elements_read .varint (fun _ => rfl) (by decide) (fun _ => rfl) short budget
  · rw [encodePackedFixed32, encodePacked, written]
    rfl
  · refine packed_reads Reader.readFixed32 number kind wire solvent here room
      (fun read same opened all => ?_) fun short budget => ?_
    · have whole := flatMap_width writeFixed32_length values
      rw [← same] at whole
      simp only [Reader.readPackedFixed32, read, Outcome.ok_bind, opened, all]
      exact if_neg (not_not_intro whole)
    · rw [readFixed32_element]
      exact elements_read .fixed32 (fun _ => rfl) (by decide) (fun _ => rfl) short budget
  · rw [encodePackedFixed64, encodePacked, written]
    rfl
  · refine packed_reads Reader.readFixed64 number kind wire solvent here room
      (fun read same opened all => ?_) fun short budget => ?_
    · have whole := flatMap_width writeFixed64_length values
      rw [← same] at whole
      simp only [Reader.readPackedFixed64, read, Outcome.ok_bind, opened, all]
      exact if_neg (not_not_intro whole)
    · rw [readFixed64_element]
      exact elements_read .fixed64 (fun _ => rfl) (by decide) (fun _ => rfl) short budget
  · rw [encodeMapEntry, written]
    rfl
  · obtain ⟨middle, slice, r', readTag, readBody, same, passed⟩ := reads_body wire solvent here room
    have short : (key.bytes ++ value.bytes).length < 2 ^ 63 := by
      rw [← same]
      exact slice.length_lt
    have budget : DecoderLimits.within r.limits.maxBytes (key.bytes ++ value.bytes).length = true := by
      refine DecoderLimits.within_mono ?_ room.bytes
      simp only [writeLengthDelimited, List.length_append]
      omega
    obtain ⟨keySlice, valueSlice, last, drained, sameKey, sameValue⟩ :=
      entry_drained r.depth short budget fields fitsKey fitsValue
    refine ⟨keySlice, valueSlice, ⟨tag, middle, r', readTag, number, kind, ?_, passed⟩, sameKey, sameValue⟩
    simp only [Reader.decodeMapEntryFrames, readBody, Outcome.ok_bind,
      nested_of_room room passed same, drained, Outcome.ofOption_some, Option.getD_some]

/-- The list of the writer's own test, in field 1. -/
theorem packed_readBack_varints :
    (1 : UInt32).toNat % 2 ^ 29 ≠ 0 ∧
      ∃ bytes, encodePackedVarint (ε := Error) 1 [1, 2, 300, 4] = .ok bytes ∧
        ∀ (r : Reader) (rest : List UInt8), r.Solvent → r.rest = bytes ++ rest →
          r.HasRoom bytes ([1, 2, 300, 4].flatMap encodeVarint) →
          ReadsField 1 bytes (Reader.readPackedVarint Reader.readVarint) [1, 2, 300, 4] r :=
  ⟨by decide, (packed_readBack 1 (by decide)).1 [1, 2, 300, 4]⟩

end TptProto.Core
