import TptProto.Core.Collect
import TptProto.Reflect.Codec

/-! Decoding as a fold: each pass reads one item, whose value is read with the wire
type the field is declared with, and applies its effect to the message. -/

namespace TptProto.Reflect

open TptProto.Foundation TptProto.Core TptProto.Descriptor

theorem toInt32_inj {first second : UInt32} (same : first.toInt32 = second.toInt32) :
    first = second := by
  simpa using congrArg Int32.toUInt32 same

/-- The occurrence is read as a packed body. Enums never are. -/
def Packs (field : FieldDescriptorProto) (wire : WireType) : Prop :=
  wire = .lengthDelimited ∧ packedAllowed (field.type.getD .string) = true ∧
    field.type.getD .string ≠ .enum ∧ field.label = some .repeated

instance (field : FieldDescriptorProto) (wire : WireType) : Decidable (Packs field wire) :=
  inferInstanceAs (Decidable (_ ∧ _))

/-- The wire type a field's value is read with, given the one on its tag. -/
def wireFor (field : FieldDescriptorProto) (wire : WireType) : WireType :=
  if Packs field wire then .lengthDelimited else fieldWireType (field.type.getD .string)

/-- The field or extension a tag is decoded as. -/
def declared (pool : DescriptorPool) (descriptor : DescriptorProto) (number : Int32) :
    Option FieldDescriptorProto :=
  (descriptor.findFieldByNumber number).or (extensionFor pool descriptor number)

def wireOf (pool : DescriptorPool) (descriptor : DescriptorProto) (tag : Tag) : WireType :=
  match declared pool descriptor tag.fieldNumber.toInt32 with
  | some field => wireFor field tag.wireType
  | none => tag.wireType

/-- The value a scalar type makes of what its wire type read. -/
def interpretScalar (limits : DecoderLimits) (t : FieldType) (value : UnknownValue) :
    ReflectResult Value :=
  match t, value with
  | .int32, .varint word => .ok (.scalar (.i64 (wordInt32 word).toInt64))
  | .int64, .varint word => .ok (.scalar (.i64 word.toInt64))
  | .uint32, .varint word => .ok (.scalar (.u64 word.toUInt32.toUInt64))
  | .uint64, .varint word => .ok (.scalar (.u64 word))
  | .sint32, .varint word => .ok (.scalar (.i64 (decodeZigzag32 word.toUInt32).toInt64))
  | .sint64, .varint word => .ok (.scalar (.i64 (decodeZigzag64 word)))
  | .fixed32, .fixed32 word => .ok (.scalar (.u64 word.toUInt64))
  | .sfixed32, .fixed32 word => .ok (.scalar (.i64 word.toInt32.toInt64))
  | .fixed64, .fixed64 word => .ok (.scalar (.u64 word))
  | .sfixed64, .fixed64 word => .ok (.scalar (.i64 word.toInt64))
  | .float, .fixed32 word => .ok (.scalar (.f64 (Ieee.widen word)))
  | .double, .fixed64 word => .ok (.scalar (.f64 word))
  | .bool, .varint word => .ok (.scalar (.bool (word != 0)))
  | .enum, .varint word => .ok (.enum (wordInt32 word))
  | .string, .lengthDelimited bytes => do
    (limits.checkString bytes.length).mapErr .wire
    let text ← Outcome.ofOption (.wire (.utf8Error (validUpTo bytes))) (fromUtf8 bytes)
    .ok (.scalar (.string text))
  | .bytes, .lengthDelimited bytes => .ok (.scalar (.bytes bytes))
  | _, _ => .err (.typeMismatch "message handled separately")

/-- What a read value of a field decodes to, below a cursor with these limits and depth. -/
def interpret (recurse : Recurse) (pool : DescriptorPool) (limits : DecoderLimits) (depth : UInt32)
    (field : FieldDescriptorProto) (wire : WireType) (value : UnknownValue) :
    ReflectResult Value :=
  let t := field.type.getD .string
  if t = .message ∨ t = .group then do
    let sub ← Outcome.ofOption (.unresolvedType (field.typeName.getD "")) (messageType pool field)
    let subReader ← (Reader.nestedAt limits depth (.ofBytes value.payload)).mapErr .wire
    let dm ← recurse sub subReader
    .ok (.message dm)
  else if Packs field wire then do
    let sub ← (Reader.nestedAt limits depth (.ofBytes value.payload)).mapErr .wire
    let out ← Reader.readAll (decodeScalar t) sub
    .ok (.list out)
  else interpretScalar limits t value

/-- The effect of one item on the message. -/
def applyItem (recurse : Recurse) (pool : DescriptorPool) (descriptor : DescriptorProto)
    (limits : DecoderLimits) (depth : UInt32) (msg : DynamicMessage) (item : Item) :
    ReflectResult DynamicMessage :=
  let number := item.tag.fieldNumber.toInt32
  match descriptor.findFieldByNumber number with
  | some field => do
    let val ← interpret recurse pool limits depth field item.tag.wireType item.value
    insertField msg field val
  | none =>
    match extensionFor pool descriptor number with
    | some ext => do
      let val ← interpret recurse pool limits depth ext item.tag.wireType item.value
      .ok { msg with
        extensions := SortedMap.insert msg.extensions (ext.number.getD number) val }
    | none => do
      let unknown ← (msg.unknown.keep limits item).mapErr .wire
      .ok { msg with unknown }

theorem decodeScalar_eq (t : FieldType) (plain : t ≠ .message ∧ t ≠ .group) (reader : Reader) :
    decodeScalar t reader = (do
      let (value, reader) ← (readUnknownValue (fieldWireType t) reader).mapErr .wire
      let val ← interpretScalar reader.limits t value
      .ok (val, reader)) := by
  have string : scalarOf .string reader.readStringOwned = (do
      let (value, reader) ← (readUnknownValue .lengthDelimited reader).mapErr .wire
      let val ← interpretScalar reader.limits .string value
      .ok (val, reader)) := by
    simp only [scalarOf, Reader.readStringOwned, readUnknownValue, interpretScalar]
    cases reader.readLengthDelimited with
    | ok pair =>
      obtain ⟨body, next⟩ := pair
      simp only [Outcome.ok_bind, Outcome.mapErr_ok]
      change Outcome.bind (Outcome.mapErr _ (Outcome.bind (next.limits.checkString body.bytes.length) _)) _ = _
      cases next.limits.checkString body.bytes.length with
      | ok _ => cases decoded : fromUtf8 body.bytes <;> rfl
      | err | panic | outOfFuel => rfl
    | err | panic | outOfFuel => rfl
  cases t with
  | string => exact string
  | message | group => simp at plain
  | int32 | int64 | uint32 | uint64 | sint32 | sint64 | bool | enum =>
    simp only [decodeScalar, scalarOf, readUnknownValue, fieldWireType, Reader.readInt32,
      Reader.readInt64, Reader.readUint32, Reader.readUint64, Reader.readSint32, Reader.readSint64,
      Reader.readBool, Reader.readAs]
    cases reader.readVarint <;> rfl
  | fixed32 | sfixed32 | float =>
    simp only [decodeScalar, scalarOf, readUnknownValue, fieldWireType, Reader.readSfixed32,
      Reader.readFloat, Reader.readAs]
    cases reader.readFixed32 <;> rfl
  | fixed64 | sfixed64 | double =>
    simp only [decodeScalar, scalarOf, readUnknownValue, fieldWireType, Reader.readSfixed64,
      Reader.readDouble, Reader.readAs]
    cases reader.readFixed64 <;> rfl
  | bytes =>
    simp only [decodeScalar, scalarOf, readUnknownValue, fieldWireType]
    cases reader.readLengthDelimited <;> rfl

theorem decodeOne_eq (recurse : Recurse) (pool : DescriptorPool) (field : FieldDescriptorProto)
    (wire : WireType) (reader : Reader) :
    decodeOne recurse pool field wire reader = (do
      let (value, reader) ← (readUnknownValue (wireFor field wire) reader).mapErr .wire
      let val ← interpret recurse pool reader.limits reader.depth field wire value
      .ok (val, reader)) := by
  by_cases message : field.type.getD .string = .message ∨ field.type.getD .string = .group
  · have kind : wireFor field wire = .lengthDelimited := by
      unfold wireFor
      split
      · rfl
      · rcases message with same | same <;> rw [same] <;> rfl
    simp only [decodeOne, interpret, if_pos message, kind, readUnknownValue]
    cases reader.readLengthDelimited with
    | ok pair =>
      simp only [Outcome.ok_bind, Outcome.mapErr_ok, UnknownValue.payload, Slice.ofBytes_bytes,
        bind_assoc]
      rfl
    | err | panic | outOfFuel => rfl
  · by_cases enum : field.type.getD .string = .enum
    · have unpacked : ¬ Packs field wire := fun packs => packs.2.2.1 enum
      simp only [decodeOne, interpret, if_neg message, if_pos enum, if_neg unpacked, wireFor]
      simp only [enum]
      exact decodeScalar_eq .enum (by decide) reader
    · by_cases packs : Packs field wire
      · have asSource : wire = .lengthDelimited ∧ packedAllowed (field.type.getD .string) = true ∧
            field.label = some .repeated := ⟨packs.1, packs.2.1, packs.2.2.2⟩
        simp only [decodeOne, interpret, if_neg message, if_neg enum, if_pos packs, if_pos asSource,
          wireFor, readUnknownValue]
        cases reader.readLengthDelimited with
        | ok pair =>
          simp only [Outcome.ok_bind, Outcome.mapErr_ok, UnknownValue.payload, Slice.ofBytes_bytes,
            bind_assoc]
          rfl
        | err | panic | outOfFuel => rfl
      · have notSource : ¬ (wire = .lengthDelimited ∧ packedAllowed (field.type.getD .string) = true ∧
            field.label = some .repeated) := fun both => packs ⟨both.1, both.2.1, enum, both.2.2⟩
        simp only [decodeOne, interpret, if_neg message, if_neg enum, if_neg packs, if_neg notSource,
          wireFor]
        exact decodeScalar_eq _ ⟨fun same => message (.inl same), fun same => message (.inr same)⟩ _

/-- One pass of the loop reads an item and applies it. -/
theorem decodeStep_eq (recurse : Recurse) (pool : DescriptorPool) (descriptor : DescriptorProto) :
    decodeStep recurse pool descriptor =
      fieldStep .wire (wireOf pool descriptor) (applyItem recurse pool descriptor) := by
  funext ⟨msg, reader⟩
  simp only [decodeStep, fieldStep, wireOf, declared, applyItem]
  refine Outcome.bind_congr fun pair _ => ?_
  obtain ⟨tag, reader⟩ := pair
  simp only
  cases found : descriptor.findFieldByNumber tag.fieldNumber.toInt32 with
  | some field => simp only [Option.some_or, decodeOne_eq, bind_assoc, Outcome.ok_bind]
  | none =>
    cases ext : extensionFor pool descriptor tag.fieldNumber.toInt32 with
    | some field => simp only [Option.none_or, decodeOne_eq, bind_assoc, Outcome.ok_bind]
    | none =>
      simp only [Option.none_or, stored_eq]
      cases readUnknownValue tag.wireType reader with
      | ok value =>
        obtain ⟨value, next⟩ := value
        simp only [Outcome.ok_bind, Outcome.mapErr_ok]
        cases msg.unknown.keep next.limits ⟨tag, value⟩ <;> rfl
      | err | panic | outOfFuel => rfl

/-- Decoding succeeds exactly on affordable items whose effects succeed in turn. -/
theorem decodeWith_eq_ok_iff {recurse : Recurse} {pool : DescriptorPool}
    {descriptor : DescriptorProto} {reader : Reader} {msg : DynamicMessage}
    (solvent : reader.Solvent) :
    decodeWith recurse pool descriptor reader = .ok msg ↔
      ∃ items : List Item, Items (wireOf pool descriptor) items reader.rest ∧
        Affords reader items ∧
        items.foldlM (applyItem recurse pool descriptor reader.limits reader.depth)
          (.new descriptor pool) = .ok msg := by
  rw [← drain_fieldStep_eq_ok_iff .wire solvent, ← decodeStep_eq]
  simp [decodeWith, Outcome.bind_eq_ok]

end TptProto.Reflect
