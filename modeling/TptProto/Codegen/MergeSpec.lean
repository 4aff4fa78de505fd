import TptProto.Codegen.Message
import TptProto.Core.Collect
import TptProto.Core.Packed

/-! The emitted `merge_from` as a fold: each pass reads one item with the wire type its
arm reads, and applies its effect to the struct. -/

namespace TptProto.Codegen

open TptProto.Foundation TptProto.Core TptProto.Descriptor

/-- The wire type a primitive is read with. -/
def primWire (t : FieldType) : WireType :=
  if isFixed32 t then .fixed32 else if isFixed64 t then .fixed64 else .varint

def tyWire : TyRef → WireType
  | .message _ | .scalar .string | .scalar .bytes => .lengthDelimited
  | .enum _ => .varint
  | .scalar t => primWire t

/-- The types fields have in a descriptor without groups. -/
def TyRef.Plain (ty : TyRef) : Prop :=
  ty ≠ .scalar .group ∧ ty ≠ .scalar .message ∧ ty ≠ .scalar .enum

instance (ty : TyRef) : Decidable ty.Plain := inferInstanceAs (Decidable (_ ∧ _))

/-- The value a primitive type makes of what its wire type read. -/
def interpretPrim (t : FieldType) (value : UnknownValue) : Result Val :=
  match t, value with
  | .int32, .varint word => .ok (.i32 (wordInt32 word))
  | .int64, .varint word => .ok (.i64 word.toInt64)
  | .uint32, .varint word => .ok (.u32 word.toUInt32)
  | .uint64, .varint word => .ok (.u64 word)
  | .bool, .varint word => .ok (.bool (word != 0))
  | .sint32, .varint word => .ok (.i32 (decodeZigzag32 word.toUInt32))
  | .sint64, .varint word => .ok (.i64 (decodeZigzag64 word))
  | .fixed32, .fixed32 word => .ok (.u32 word)
  | .sfixed32, .fixed32 word => .ok (.i32 word.toInt32)
  | .float, .fixed32 word => .ok (.f32 word)
  | .fixed64, .fixed64 word => .ok (.u64 word)
  | .sfixed64, .fixed64 word => .ok (.i64 word.toInt64)
  | .double, .fixed64 word => .ok (.f64 word)
  | _, _ => .panic

/-- What a read value decodes to, below a cursor with these limits and depth. -/
def interpretTy (recurse : Merge) (schema : Schema) (limits : DecoderLimits) (depth : UInt32)
    (ty : TyRef) (value : UnknownValue) : Result GenValue :=
  match ty, value with
  | .message fqn, value => do
    let sub ← Reader.nestedAt limits depth (.ofBytes value.payload)
    let m ← recurse fqn (schema.default fqn) sub
    .ok (.message m)
  | .enum fqn, .varint word => .ok (.enum (.fromI32 (schema.enumOf fqn) (wordInt32 word)))
  | .scalar .string, value => do
    limits.checkString value.payload.length
    let text ← Outcome.ofOption (.utf8Error (validUpTo value.payload)) (fromUtf8 value.payload)
    .ok (.string text)
  | .scalar .bytes, value => .ok (.bytes value.payload)
  | .scalar t, value => do
    let v ← interpretPrim t value
    .ok (.prim v)
  | _, _ => .panic

/-- The `raw`s of a packed body. -/
def PackedDecode.raws (code : PackedDecode) (limits : DecoderLimits) (depth : UInt32)
    (body : List UInt8) : Result (List Val) :=
  match code.form with
  | .varint => do
    let sub ← Reader.nestedAt limits depth (.ofBytes body)
    Reader.readAll (readPrim code.readOne) sub
  | .fixed32 =>
    if body.length % 4 ≠ 0 then .err (.malformedInput "packed fixed32 length not a multiple of 4")
    else do
      let sub ← Reader.nestedAt limits depth (.ofBytes body)
      let raws ← Reader.readAll Reader.readFixed32 sub
      .ok (raws.map .u32)
  | .fixed64 =>
    if body.length % 8 ≠ 0 then .err (.malformedInput "packed fixed64 length not a multiple of 8")
    else do
      let sub ← Reader.nestedAt limits depth (.ofBytes body)
      let raws ← Reader.readAll Reader.readFixed64 sub
      .ok (raws.map .u64)

/-- The values a packed body decodes to. -/
def interpretPacked (code : PackedDecode) (schema : Schema) (ty : TyRef) (limits : DecoderLimits)
    (depth : UInt32) (body : List UInt8) : Result (List GenValue) := do
  let raws ← code.raws limits depth body
  .ok (raws.map fun raw => element schema ty (run code.pushed raw))

/-- The key and value bytes of an entry body, and their values. -/
def interpretEntry (recurse : Merge) (schema : Schema) (limits : DecoderLimits) (depth : UInt32)
    (k v : TyRef) (body : List UInt8) : Result (GenValue × GenValue) := do
  let entry ← Reader.nestedAt limits depth (.ofBytes body)
  let ((rawKey, rawValue), _) ← entry.drain Reader.mapEntryStep (none, none)
  let rawKey ← Outcome.ofOption (.malformedInput "map entry missing key") rawKey
  let keyReader ← Reader.nestedAt limits depth rawKey
  let (key, _) ← decValueExpr recurse schema k keyReader
  let valueReader ← Reader.nestedAt limits depth (rawValue.getD .empty)
  let (value, _) ← decValueExpr recurse schema v valueReader
  .ok (key, value)

/-- The wire type an arm reads a value with, given the one on the tag. -/
def Arm.wire (arm : Arm) (wire : WireType) : WireType :=
  match arm with
  | .assign ty | .assignSome ty | .push ty | .oneof _ ty => tyWire ty
  | .replace _ | .mergeInto _ | .insertEntry _ _ => .lengthDelimited
  | .byWireType _ ty => if wire = .lengthDelimited then .lengthDelimited else tyWire ty
  | .nothing => wire

/-- Arms that read exactly one value. -/
def Arm.Regular : Arm → Prop
  | .assign ty | .assignSome ty | .push ty | .oneof _ ty | .byWireType _ ty => ty.Plain
  | .replace _ | .mergeInto _ | .insertEntry _ _ => True
  | .nothing => False

/-- The effect of an arm on the struct, given the value read. -/
def Arm.apply (recurse : Merge) (schema : Schema) (limits : DecoderLimits) (depth : UInt32)
    (msg : Struct) (number : UInt32) (wire : WireType) (value : UnknownValue) (arm : Arm) :
    Result Struct :=
  match arm with
  | .assign ty => do
    let v ← interpretTy recurse schema limits depth ty value
    .ok (msg.setSlot number (.implicit v))
  | .assignSome ty => do
    let v ← interpretTy recurse schema limits depth ty value
    .ok (msg.setSlot number (.explicit (some v)))
  | .replace fqn => do
    let sub ← Reader.nestedAt limits depth (.ofBytes value.payload)
    let m ← recurse fqn (schema.default fqn) sub
    .ok (msg.setSlot number (.implicit (.message m)))
  | .mergeInto fqn => do
    let sub ← Reader.nestedAt limits depth (.ofBytes value.payload)
    let m ← recurse fqn (msg.existing schema number fqn) sub
    .ok (msg.setSlot number (.explicit (some (.message m))))
  | .push ty => do
    let v ← interpretTy recurse schema limits depth ty value
    .ok (msg.pushAll number [v])
  | .byWireType code ty =>
    if wire = .lengthDelimited then do
      let values ← interpretPacked code schema ty limits depth value.payload
      .ok (msg.pushAll number values)
    else do
      let v ← interpretTy recurse schema limits depth ty value
      .ok (msg.pushAll number [v])
  | .nothing => .ok msg
  | .insertEntry k v => do
    let (key, entryValue) ← interpretEntry recurse schema limits depth k v value.payload
    .ok (msg.insertEntry number key entryValue)
  | .oneof index ty => do
    let v ← interpretTy recurse schema limits depth ty value
    .ok (msg.setOneof index number v)

def mergeWire (arms : List (UInt32 × Arm)) (tag : Tag) : WireType :=
  match SortedMap.get? arms tag.fieldNumber with
  | some arm => arm.wire tag.wireType
  | none => tag.wireType

/-- The effect of one item on the struct. -/
def applyArm (recurse : Merge) (schema : Schema) (arms : List (UInt32 × Arm))
    (limits : DecoderLimits) (depth : UInt32) (msg : Struct) (item : Item) : Result Struct :=
  match SortedMap.get? arms item.tag.fieldNumber with
  | some arm =>
    arm.apply recurse schema limits depth msg item.tag.fieldNumber item.tag.wireType item.value
  | none => do
    let unknown ← msg.unknown.keep limits item
    .ok { msg with unknown }

theorem readPrim_eq {t : FieldType} (known : (scalarRust t).isSome = true) (notEnum : t ≠ .enum)
    (r : Reader) :
    readPrim t r = (do
      let (value, r) ← readUnknownValue (primWire t) r
      let v ← interpretPrim t value
      .ok (v, r)) := by
  cases t with
  | string | bytes | message | group => simp [scalarRust] at known
  | enum => exact absurd rfl notEnum
  | int32 | int64 | uint32 | uint64 | bool | sint32 | sint64 =>
    simp only [readPrim, Reader.readAs, Reader.readInt32, Reader.readInt64, Reader.readUint32,
      Reader.readUint64, Reader.readBool, Reader.readSint32, Reader.readSint64, readUnknownValue,
      primWire, isFixed32, isFixed64]
    cases r.readVarint <;> rfl
  | fixed32 | sfixed32 | float =>
    simp only [readPrim, Reader.readAs, Reader.readSfixed32, Reader.readFloat, readUnknownValue,
      primWire, isFixed32]
    cases r.readFixed32 <;> rfl
  | fixed64 | sfixed64 | double =>
    simp only [readPrim, Reader.readAs, Reader.readSfixed64, Reader.readDouble, readUnknownValue,
      primWire, isFixed32, isFixed64]
    cases r.readFixed64 <;> rfl

theorem decValueExpr_eq {ty : TyRef} (plain : ty.Plain) (recurse : Merge) (schema : Schema)
    (r : Reader) :
    decValueExpr recurse schema ty r = (do
      let (value, r) ← readUnknownValue (tyWire ty) r
      let v ← interpretTy recurse schema r.limits r.depth ty value
      .ok (v, r)) := by
  cases ty with
  | message fqn =>
    simp only [decValueExpr, tyWire, readUnknownValue, interpretTy]
    cases r.readLengthDelimited with
    | ok pair =>
      simp only [Outcome.ok_bind, UnknownValue.payload, Slice.ofBytes_bytes, bind_assoc]
      rfl
    | err | panic | outOfFuel => rfl
  | enum fqn =>
    simp only [decValueExpr, tyWire, readUnknownValue, Reader.readAs, Reader.readInt32]
    cases r.readVarint <;> rfl
  | scalar t =>
    cases t with
    | string =>
      simp only [decValueExpr, tyWire, readUnknownValue, interpretTy, Reader.readAs,
        Reader.readStringOwned]
      cases r.readLengthDelimited with
      | ok pair => simp only [Outcome.ok_bind, UnknownValue.payload, bind_assoc, Slice.length]
      | err | panic | outOfFuel => rfl
    | bytes =>
      simp only [decValueExpr, tyWire, readUnknownValue, Reader.readAs]
      cases r.readLengthDelimited <;> rfl
    | group => exact absurd rfl plain.1
    | message => exact absurd rfl plain.2.1
    | enum => exact absurd rfl plain.2.2
    | _ =>
      simp only [decValueExpr, Reader.readAs, tyWire, interpretTy]
      rw [readPrim_eq (by rfl) (by decide)]
      simp only [bind_assoc, Outcome.ok_bind]

theorem PackedDecode.readRaw_eq (code : PackedDecode) (r : Reader) :
    code.readRaw r = (do
      let (body, r) ← r.readLengthDelimited
      let raws ← code.raws r.limits r.depth body.bytes
      .ok (raws, r)) := by
  unfold PackedDecode.readRaw PackedDecode.raws
  cases code.form with
  | varint =>
    simp only [Reader.readPackedVarint, Slice.ofBytes_bytes, bind_assoc]
    rfl
  | fixed32 =>
    simp only [Reader.readAs, Reader.readPackedFixed32, Slice.ofBytes_bytes, bind_assoc]
    refine Outcome.bind_congr fun pair _ => ?_
    by_cases odd : pair.1.length % 4 ≠ 0
    · have oddBytes : pair.1.bytes.length % 4 ≠ 0 := odd
      simp only [if_pos odd, if_pos oddBytes, Outcome.err_bind]
    · have evenBytes : ¬ pair.1.bytes.length % 4 ≠ 0 := odd
      simp only [if_neg odd, if_neg evenBytes, bind_assoc, Outcome.ok_bind]
      rfl
  | fixed64 =>
    simp only [Reader.readAs, Reader.readPackedFixed64, Slice.ofBytes_bytes, bind_assoc]
    refine Outcome.bind_congr fun pair _ => ?_
    by_cases odd : pair.1.length % 8 ≠ 0
    · have oddBytes : pair.1.bytes.length % 8 ≠ 0 := odd
      simp only [if_pos odd, if_pos oddBytes, Outcome.err_bind]
    · have evenBytes : ¬ pair.1.bytes.length % 8 ≠ 0 := odd
      simp only [if_neg odd, if_neg evenBytes, bind_assoc, Outcome.ok_bind]
      rfl

/-- A packed arm reads one length-delimited value. -/
theorem PackedDecode.run_eq (code : PackedDecode) (schema : Schema) (ty : TyRef) (r : Reader) :
    code.run schema ty r = (do
      let (value, r) ← readUnknownValue .lengthDelimited r
      let values ← interpretPacked code schema ty r.limits r.depth value.payload
      .ok (values, r)) := by
  simp only [PackedDecode.run, PackedDecode.readRaw_eq, readUnknownValue, interpretPacked,
    UnknownValue.payload, bind_assoc, Outcome.ok_bind]

theorem Arm.run_eq {arm : Arm} (regular : arm.Regular) (recurse : Merge) (schema : Schema)
    (number : UInt32) (wire : WireType) (msg : Struct) (r : Reader) :
    arm.run recurse schema number wire msg r = (do
      let (value, r) ← readUnknownValue (arm.wire wire) r
      let msg ← arm.apply recurse schema r.limits r.depth msg number wire value
      .ok (msg, r)) := by
  cases arm with
  | assign ty | assignSome ty | push ty | oneof _ ty =>
    simp only [Arm.run, Arm.wire, Arm.apply, decValueExpr_eq regular, bind_assoc, Outcome.ok_bind]
  | replace fqn | mergeInto fqn =>
    simp only [Arm.run, Arm.wire, Arm.apply, readUnknownValue]
    cases r.readLengthDelimited with
    | ok pair =>
      simp only [Outcome.ok_bind, UnknownValue.payload, Slice.ofBytes_bytes, bind_assoc]
      rfl
    | err | panic | outOfFuel => rfl
  | byWireType code ty =>
    simp only [Arm.run, Arm.wire, Arm.apply]
    split
    · simp only [PackedDecode.run_eq, bind_assoc, Outcome.ok_bind]
    · simp only [decValueExpr_eq regular, bind_assoc, Outcome.ok_bind]
  | insertEntry k v =>
    simp only [Arm.run, Arm.wire, Arm.apply, readUnknownValue, interpretEntry,
      Reader.decodeMapEntryFrames]
    cases r.readLengthDelimited with
    | ok pair =>
      simp only [Outcome.ok_bind, UnknownValue.payload, Slice.ofBytes_bytes, bind_assoc]
      rfl
    | err | panic | outOfFuel => rfl
  | nothing => exact regular.elim

/-- One pass of the emitted loop reads an item of a regular arm and applies it. -/
theorem mergeStep_eq_at {arms : List (UInt32 × Arm)} {state : Struct × Reader}
    (regular : ∀ tag r, state.2.readTag = .ok (tag, r) → ∀ arm,
      SortedMap.get? arms tag.fieldNumber = some arm → arm.Regular)
    (recurse : Merge) (schema : Schema) :
    mergeStep recurse schema arms state =
      fieldStep id (mergeWire arms) (applyArm recurse schema arms) state := by
  obtain ⟨msg, r⟩ := state
  simp only [mergeStep, fieldStep, mergeWire, applyArm, Outcome.mapErr_id]
  refine Outcome.bind_congr fun pair read => ?_
  obtain ⟨tag, r⟩ := pair
  simp only
  cases found : SortedMap.get? arms tag.fieldNumber with
  | some arm => simp only [Arm.run_eq (regular _ _ read _ found)]
  | none => simp only [stored_eq, bind_assoc, Outcome.ok_bind]

theorem mergeStep_eq {arms : List (UInt32 × Arm)} (regular : ∀ entry ∈ arms, entry.2.Regular)
    (recurse : Merge) (schema : Schema) :
    mergeStep recurse schema arms = fieldStep id (mergeWire arms) (applyArm recurse schema arms) :=
  funext fun _ => mergeStep_eq_at (fun _ _ _ _ found => regular _ (SortedMap.mem_of_get? found)) _ _

/-- Merging succeeds exactly on affordable items whose effects succeed in turn. -/
theorem mergeWith_eq_ok_iff {recurse : Merge} {schema : Schema} {fqn : String} {msg final : Struct}
    {r : Reader} (solvent : r.Solvent)
    (regular : ∀ entry ∈ genArms schema (schema.messageOf fqn), entry.2.Regular) :
    mergeWith recurse schema fqn msg r = .ok final ↔
      ∃ items : List Item, Items (mergeWire (genArms schema (schema.messageOf fqn))) items r.rest ∧
        Affords r items ∧
        items.foldlM (applyArm recurse schema (genArms schema (schema.messageOf fqn)) r.limits
          r.depth) msg = .ok final := by
  rw [← drain_fieldStep_eq_ok_iff id solvent, ← mergeStep_eq regular]
  simp [mergeWith, Outcome.bind_eq_ok]

end TptProto.Codegen
