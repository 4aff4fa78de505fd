import TptProto.Codegen.Packed

/-! The `encode` and `merge_from` emitted for a message. `gen…` functions give what the
generator emits for a field; running it is the meaning of the emitted statements. -/

namespace TptProto.Codegen

open TptProto.Foundation TptProto.Core TptProto.Descriptor

def Schema.messageOf (schema : Schema) (fqn : String) : MessageDef :=
  (SortedMap.get? schema.messages fqn).getD ⟨{}, .proto2⟩

/-- Insert a field before the first one with a number that is not smaller. -/
def insertByNumber (f : FieldDescriptorProto) : List FieldDescriptorProto → List FieldDescriptorProto
  | [] => [f]
  | g :: rest =>
    if f.number.getD 0 ≤ g.number.getD 0 then f :: g :: rest else g :: insertByNumber f rest

/-- `fields.sort_by_key(|f| f.number.unwrap_or(0))`, which keeps equal keys in order. -/
def sortByNumber (fields : List FieldDescriptorProto) : List FieldDescriptorProto :=
  fields.foldr insertByNumber []

/-- The fields that are struct fields of their own, by number. -/
def plainFields (m : DescriptorProto) : List FieldDescriptorProto :=
  (sortByNumber m.field).filter fun f => f.extendee.isNone && f.oneofIndex.isNone

/-- The members of a oneof. -/
def oneofMembers (m : DescriptorProto) (index : Nat) : List FieldDescriptorProto :=
  m.field.filter fun f => f.oneofIndex = some (Int32.ofNat index)

def num (f : FieldDescriptorProto) : UInt32 := (f.number.getD 0).toUInt32

/-! ### Defaults -/

/-- The default of a scalar or enum type. -/
def defaultScalar : FieldType → GenValue
  | .double => .prim (.f64 0)
  | .float => .prim (.f32 0)
  | .int64 | .sfixed64 | .sint64 => .prim (.i64 0)
  | .uint64 | .fixed64 => .prim (.u64 0)
  | .int32 | .enum | .sfixed32 | .sint32 => .prim (.i32 0)
  | .fixed32 | .uint32 => .prim (.u32 0)
  | .bool => .prim (.bool false)
  | .string => .string ""
  | .group | .message | .bytes => .bytes []

/-- `T::default()` of a message type. Structs nest to a depth of at most their number. -/
def defaultStruct (schema : Schema) : Nat → String → Struct
  | 0, _ => ⟨[], [], .empty⟩
  | fuel + 1, fqn =>
    let messageDef := schema.messageOf fqn
    { fields := (plainFields messageDef.descriptor).filterMap fun f =>
        if isMapField schema f then some (num f, .map [])
        else (TyRef.fromField f).map fun ty =>
          match presence messageDef.mode f, ty with
          | .repeated, _ => (num f, .repeated [])
          | .explicit, _ => (num f, .explicit none)
          | .implicit, .scalar t => (num f, .implicit (defaultScalar t))
          | .implicit, .enum _ => (num f, .implicit (.enum (.variant 0)))
          | .implicit, .message inner =>
            (num f, .implicit (.message (defaultStruct schema fuel inner)))
      oneofs := messageDef.descriptor.oneofDecl.map fun _ => none
      unknown := .empty }

def Schema.default (schema : Schema) (fqn : String) : Struct :=
  defaultStruct schema (schema.messages.length + 1) fqn

/-- `self != 0`, or `!= 0.0`, of a primitive. The two float zeros are equal. -/
def Val.nonzero : Val → Bool
  | .i32 v => v != 0
  | .i64 v => v != 0
  | .u32 v => v != 0
  | .u64 v => v != 0
  | .f32 bits => bits != 0 && bits != 0x80000000
  | .f64 bits => bits != 0 && bits != 0x8000000000000000
  | .bool v => v

/-- Whether a value differs from its type's default, given whether the messages in it do. -/
def differs (value : GenValue × Option Bool) : Bool :=
  match value.1 with
  | .prim v => Val.nonzero v
  | .string s => s != ""
  | .bytes b => !b.isEmpty
  | .enum v => v != .variant 0
  | .message _ => value.2.getD false

def Slot.differs : Slot (GenValue × Option Bool) → Bool
  | .implicit value => Codegen.differs value
  | .explicit value => value.isSome
  | .repeated values => !values.isEmpty
  | .map entries => !entries.isEmpty

/-- `self != T::default()` of a struct. -/
def structDiffers (msg : GenMsg (GenValue × Option Bool)) : Bool :=
  msg.fields.any (fun entry => entry.2.differs) || msg.oneofs.any Option.isSome ||
    !msg.unknown.isEmpty

/-- `implicit_guard`: every type's guard compares with its default. -/
def implicitGuard (value : GenValue) : Bool := differs (value, value.fold structDiffers)

/-! ### Encoding -/

/-- What encodes the messages inside a value, given the message type. -/
abbrev Encoded := Schema → String → Result (List UInt8)

/-- `scalar::encode_*` of a primitive type. -/
def encPrim (t : FieldType) (number : UInt32) (v : Val) : Result (List UInt8) := do
  let wireType : WireType :=
    if isFixed32 t then .fixed32 else if isFixed64 t then .fixed64 else .varint
  let tag ← writeTag number wireType
  let body := match t, v with
    | .sint32, .i32 v => encodeVarint (encodeZigzag32 v).toUInt64
    | .sint64, .i64 v => encodeVarint (encodeZigzag64 v)
    | .float, .f32 bits => writeFixed32 bits
    | .double, .f64 bits => writeFixed64 bits
    | _, v =>
      if isFixed32 t then writeFixed32 v.asU32
      else if isFixed64 t then writeFixed64 v.asU64 else encodeVarint v.asU64
  .ok (tag ++ body)

/-- `enc_value`. A nested message that fails to encode panics on `unwrap`. -/
def encValue (schema : Schema) (number : UInt32) (ty : TyRef) (value : GenValue × Option Encoded) :
    Result (List UInt8) :=
  match ty, value.1 with
  | .scalar .string, .string s => do
    let tag ← writeTag number .lengthDelimited
    .ok (tag ++ writeString s)
  | .scalar .bytes, .bytes b => do
    let tag ← writeTag number .lengthDelimited
    .ok (tag ++ writeLengthDelimited b)
  | .scalar t, .prim v => encPrim t number v
  | .enum fqn, .enum v => encPrim .int32 number (.i32 (v.asI32 (schema.enumOf fqn)))
  | .message fqn, .message _ =>
    match (value.2.map fun encode => encode schema fqn : Option (Result (List UInt8))) with
    | some (.ok bytes) => do
      let tag ← writeTag number .lengthDelimited
      .ok (tag ++ writeLengthDelimited bytes)
    | _ => .panic
  | _, _ => .panic

/-- What `gen_repeated_encode` emits. -/
inductive RepeatedEncode where
  | each
  | packed (code : PackedEncode)
  | nothing
  deriving DecidableEq, Repr

def genRepeatedEncode (ty : TyRef) (mode : SyntaxMode) : RepeatedEncode :=
  match ty with
  | .message _ | .scalar .string | .scalar .bytes => .each
  | _ =>
    match genPackedEncode ty with
    | some code => if mode = .proto2 then .each else .packed code
    | none => .nothing

def RepeatedEncode.run (code : RepeatedEncode) (schema : Schema) (ty : TyRef) (number : UInt32)
    (values : List (GenValue × Option Encoded)) : Result (List UInt8) :=
  match code with
  | .each => writeEach (encValue schema number ty) values
  | .packed code => code.run schema ty number (values.map Prod.fst)
  | .nothing => .ok []

/-- `gen_field_encode`, and `gen_map_encode` for a map field. -/
def genFieldEncode (schema : Schema) (mode : SyntaxMode) (f : FieldDescriptorProto) (ty : TyRef)
    (slot : Slot (GenValue × Option Encoded)) : Result (List UInt8) :=
  match slot with
  | .implicit value =>
    if implicitGuard value.1 then encValue schema (num f) ty value else .ok []
  | .explicit none => .ok []
  | .explicit (some value) => encValue schema (num f) ty value
  | .repeated values => (genRepeatedEncode ty mode).run schema ty (num f) values
  | .map entries =>
    let (k, v) := mapKv schema f
    writeEach (fun entry => do
      let key ← encValue schema 1 k entry.1
      let value ← encValue schema 2 v entry.2
      let tag ← writeTag (num f) .lengthDelimited
      .ok (tag ++ writeLengthDelimited (key ++ value))) entries

def genOneofEncode (schema : Schema) (m : DescriptorProto) (index : Nat)
    (held : Option (UInt32 × (GenValue × Option Encoded))) : Result (List UInt8) :=
  match held with
  | none => .ok []
  | some (number, value) =>
    match ((oneofMembers m index).find? fun f => num f = number).bind TyRef.fromField with
    | some ty => encValue schema number ty value
    | none => .ok []

/-- The emitted `encode` of a message type. -/
def encodeWith (msg : GenMsg (GenValue × Option Encoded)) : Encoded := fun schema fqn => do
  let messageDef := schema.messageOf fqn
  let fields ← writeEach (fun f =>
    match SortedMap.get? msg.fields (num f), TyRef.fromField f with
    | some slot, some ty => genFieldEncode schema messageDef.mode f ty slot
    | _, _ => .ok []) (plainFields messageDef.descriptor)
  let oneofs ← writeEach (fun held => genOneofEncode schema messageDef.descriptor held.2 held.1)
    msg.oneofs.zipIdx
  let unknown ← msg.unknown.encode
  .ok (fields ++ oneofs ++ unknown)

def GenMsg.encode (msg : Struct) (schema : Schema) (fqn : String) : Result (List UInt8) :=
  foldStruct encodeWith msg schema fqn

/-! ### Decoding -/

/-- `merge_from` of a named message type. -/
abbrev Merge := String → Struct → Reader → Result Struct

/-- `dec_value_expr`. -/
def decValueExpr (recurse : Merge) (schema : Schema) (ty : TyRef) (r : Reader) :
    Result (GenValue × Reader) :=
  match ty with
  | .message fqn => do
    let (body, r) ← r.readLengthDelimited
    let sub ← r.nested body
    let m ← recurse fqn (schema.default fqn) sub
    .ok (.message m, r)
  | .enum fqn => Reader.readAs (fun v => .enum (.fromI32 (schema.enumOf fqn) v)) Reader.readInt32 r
  | .scalar .string => Reader.readAs .string Reader.readStringOwned r
  | .scalar .bytes => Reader.readAs (fun body => .bytes body.bytes) Reader.readLengthDelimited r
  | .scalar t => Reader.readAs .prim (readPrim t) r

/-- What the emitted `merge_from` does at a field number. -/
inductive Arm where
  | assign (ty : TyRef)
  | assignSome (ty : TyRef)
  | replace (fqn : String)
  | mergeInto (fqn : String)
  | push (ty : TyRef)
  | byWireType (code : PackedDecode) (ty : TyRef)
  | nothing
  | insertEntry (key value : TyRef)
  | oneof (index : Nat) (ty : TyRef)
  deriving DecidableEq, Repr

def decodeAssign (ty : TyRef) (isOption : Bool) : Arm :=
  match ty with
  | .message fqn => if isOption then .mergeInto fqn else .replace fqn
  | _ => if isOption then .assignSome ty else .assign ty

def genRepeatedDecode (ty : TyRef) (mode : SyntaxMode) : Arm :=
  match ty with
  | .message _ | .scalar .string | .scalar .bytes => .push ty
  | _ =>
    match genPackedDecode ty with
    | some code => if mode = .proto2 then .push ty else .byWireType code ty
    | none => .nothing

def genFieldDecode (mode : SyntaxMode) (f : FieldDescriptorProto) (ty : TyRef) : Arm :=
  match presence mode f with
  | .implicit => decodeAssign ty false
  | .explicit => decodeAssign ty true
  | .repeated => genRepeatedDecode ty mode

/-- The arms of `match tag.field_number`, in the order they are emitted. -/
def genArms (schema : Schema) (messageDef : MessageDef) : List (UInt32 × Arm) :=
  let m := messageDef.descriptor
  (plainFields m).filterMap (fun f =>
    if isMapField schema f then some (num f, .insertEntry (mapKv schema f).1 (mapKv schema f).2)
    else (TyRef.fromField f).map fun ty => (num f, genFieldDecode messageDef.mode f ty)) ++
  m.oneofDecl.zipIdx.flatMap fun decl => (oneofMembers m decl.2).filterMap fun f =>
    (TyRef.fromField f).map fun ty => (num f, .oneof decl.2 ty)

/-- Equality of map keys, which are integers, booleans or strings. -/
def sameKey : GenValue → GenValue → Bool
  | .prim v, .prim w => v = w
  | .string s, .string t => s = t
  | _, _ => false

/-- `HashMap::insert`. -/
def mapInsert (entries : List (GenValue × GenValue)) (key value : GenValue) :
    List (GenValue × GenValue) :=
  match entries with
  | [] => [(key, value)]
  | entry :: rest =>
    if sameKey entry.1 key then (entry.1, value) :: rest else entry :: mapInsert rest key value

namespace GenMsg

def setSlot (msg : Struct) (number : UInt32) (slot : Slot GenValue) : Struct :=
  { msg with fields := SortedMap.insert msg.fields number slot }

/-- `self.f.push(v)` of each value. -/
def pushAll (msg : Struct) (number : UInt32) (values : List GenValue) : Struct :=
  { msg with fields := SortedMap.upsert msg.fields number fun
      | some (.repeated stored) => .repeated (stored ++ values)
      | _ => .repeated values }

def insertEntry (msg : Struct) (number : UInt32) (key value : GenValue) : Struct :=
  { msg with fields := SortedMap.upsert msg.fields number fun
      | some (.map entries) => .map (mapInsert entries key value)
      | _ => .map [(key, value)] }

/-- `self.f.get_or_insert_with(T::default)`. -/
def existing (msg : Struct) (schema : Schema) (number : UInt32) (fqn : String) : Struct :=
  match SortedMap.get? msg.fields number with
  | some (.explicit (some (.message m))) => m
  | _ => schema.default fqn

def setOneof (msg : Struct) (index : Nat) (number : UInt32) (value : GenValue) : Struct :=
  { msg with oneofs := msg.oneofs.set index (some (number, value)) }

end GenMsg

def Arm.run (recurse : Merge) (schema : Schema) (number : UInt32) (wire : WireType) (arm : Arm)
    (msg : Struct) (r : Reader) : Result (Struct × Reader) :=
  match arm with
  | .assign ty => do
    let (v, r) ← decValueExpr recurse schema ty r
    .ok (msg.setSlot number (.implicit v), r)
  | .assignSome ty => do
    let (v, r) ← decValueExpr recurse schema ty r
    .ok (msg.setSlot number (.explicit (some v)), r)
  | .replace fqn => do
    let (body, r) ← r.readLengthDelimited
    let sub ← r.nested body
    let m ← recurse fqn (schema.default fqn) sub
    .ok (msg.setSlot number (.implicit (.message m)), r)
  | .mergeInto fqn => do
    let (body, r) ← r.readLengthDelimited
    let sub ← r.nested body
    let m ← recurse fqn (msg.existing schema number fqn) sub
    .ok (msg.setSlot number (.explicit (some (.message m))), r)
  | .push ty => do
    let (v, r) ← decValueExpr recurse schema ty r
    .ok (msg.pushAll number [v], r)
  | .byWireType code ty =>
    if wire = .lengthDelimited then do
      let (values, r) ← code.run schema ty r
      .ok (msg.pushAll number values, r)
    else do
      let (v, r) ← decValueExpr recurse schema ty r
      .ok (msg.pushAll number [v], r)
  | .nothing => .ok (msg, r)
  | .insertEntry k v => do
    let ((rawKey, rawValue), r) ← r.decodeMapEntryFrames
    let keyReader ← r.nested rawKey
    let (key, _) ← decValueExpr recurse schema k keyReader
    let valueReader ← r.nested rawValue
    let (value, _) ← decValueExpr recurse schema v valueReader
    .ok (msg.insertEntry number key value, r)
  | .oneof index ty => do
    let (v, r) ← decValueExpr recurse schema ty r
    .ok (msg.setOneof index number v, r)

/-- One pass of the emitted loop. -/
def mergeStep (recurse : Merge) (schema : Schema) (arms : List (UInt32 × Arm))
    (state : Struct × Reader) : Result (Struct × Reader) := do
  let (msg, r) := state
  let (tag, r) ← r.readTag
  match SortedMap.get? arms tag.fieldNumber with
  | some arm => arm.run recurse schema tag.fieldNumber tag.wireType msg r
  | none => do
    let (unknown, r) ← msg.unknown.stored tag r
    .ok ({ msg with unknown }, r)

def mergeWith (recurse : Merge) (schema : Schema) : Merge := fun fqn msg r => do
  let (msg, _) ← r.drain (mergeStep recurse schema (genArms schema (schema.messageOf fqn))) msg
  .ok msg

/-- The emitted `merge_from` with a bound on the nesting of messages. -/
def mergeNested (schema : Schema) : Nat → Merge
  | 0 => fun _ _ _ => .outOfFuel
  | fuel + 1 => mergeWith (mergeNested schema fuel) schema

/-- The emitted `merge_from`. A nested body is shorter than the buffer it lies in. -/
def GenMsg.mergeFrom (schema : Schema) (fqn : String) (msg : Struct) (r : Reader) : Result Struct :=
  mergeNested schema (r.buf.length + 1) fqn msg r

/-- The emitted `decode`, with the limits given. -/
def GenMsg.decode (schema : Schema) (fqn : String) (buf : Slice) (limits : DecoderLimits) :
    Result Struct :=
  GenMsg.mergeFrom schema fqn (schema.default fqn) (Reader.withLimits buf limits)

end TptProto.Codegen
