import TptProto.Core.Packed
import TptProto.Reflect.Value

/-! Decoding and encoding a message from its descriptor. The encoders append to a
writer; here they return the bytes they append. -/

namespace TptProto.Reflect

open TptProto.Foundation TptProto.Core TptProto.Descriptor

/-- The shape of the arms of `decode_scalar`. -/
def scalarOf {α : Type} (wrap : α → ScalarValue) (read : Result (α × Reader)) :
    ReflectResult (Value × Reader) := do
  let (value, reader) ← read.mapErr .wire
  .ok (.scalar (wrap value), reader)

def decodeScalar (t : FieldType) (reader : Reader) : ReflectResult (Value × Reader) :=
  match t with
  | .int32 => scalarOf (fun v => .i64 v.toInt64) reader.readInt32
  | .int64 => scalarOf .i64 reader.readInt64
  | .uint32 => scalarOf (fun v => .u64 v.toUInt64) reader.readUint32
  | .uint64 => scalarOf .u64 reader.readUint64
  | .sint32 => scalarOf (fun v => .i64 v.toInt64) reader.readSint32
  | .sint64 => scalarOf .i64 reader.readSint64
  | .fixed32 => scalarOf (fun v => .u64 v.toUInt64) reader.readFixed32
  | .sfixed32 => scalarOf (fun v => .i64 v.toInt64) reader.readSfixed32
  | .fixed64 => scalarOf .u64 reader.readFixed64
  | .sfixed64 => scalarOf .i64 reader.readSfixed64
  | .float => scalarOf (fun v => .f64 (Ieee.widen v)) reader.readFloat
  | .double => scalarOf .f64 reader.readDouble
  | .bool => scalarOf .bool reader.readBool
  | .string => scalarOf .string reader.readStringOwned
  | .bytes => scalarOf (fun body => .bytes body.bytes) reader.readLengthDelimited
  | .enum => do
    let (value, reader) ← reader.readInt32.mapErr .wire
    .ok (.enum value, reader)
  | .message | .group => .err (.typeMismatch "message handled separately")

/-- The decoder a message-typed field is handed on to. -/
abbrev Recurse := DescriptorProto → Reader → ReflectResult DynamicMessage

def decodeOne (recurse : Recurse) (pool : DescriptorPool) (field : FieldDescriptorProto)
    (wire : WireType) (reader : Reader) : ReflectResult (Value × Reader) :=
  let t := field.type.getD .string
  if t = .message ∨ t = .group then do
    let (body, reader) ← reader.readLengthDelimited.mapErr .wire
    let sub ← Outcome.ofOption (.unresolvedType (field.typeName.getD "")) (messageType pool field)
    let subReader ← (reader.nested body).mapErr .wire
    let dm ← recurse sub subReader
    .ok (.message dm, reader)
  else if t = .enum then do
    let (value, reader) ← reader.readInt32.mapErr .wire
    .ok (.enum value, reader)
  else if wire = .lengthDelimited ∧ packedAllowed t = true ∧ field.label = some .repeated then do
    let (body, reader) ← reader.readLengthDelimited.mapErr .wire
    let sub ← (reader.nested body).mapErr .wire
    let out ← Reader.readAll (decodeScalar t) sub
    .ok (.list out, reader)
  else decodeScalar t reader

/-- The key and value a decoded map entry holds; an absent one is the integer zero. -/
def entryOf : Value → Value × Value
  | .message dm =>
    ((dm.getField 1).getD (.scalar (.i64 0)), (dm.getField 2).getD (.scalar (.i64 0)))
  | _ => (.scalar (.i64 0), .scalar (.i64 0))

/-- What `insert_field` makes of the value already stored under a repeated field. -/
def appendValue (stored : Option Value) (val : Value) : Value :=
  match stored.getD (.list []) with
  | .list items =>
    match val with
    | .list inner => .list (items ++ inner)
    | other => .list (items ++ [other])
  | _ => val

def insertField (msg : DynamicMessage) (field : FieldDescriptorProto) (val : Value) :
    ReflectResult DynamicMessage :=
  let number := field.number.getD 0
  if field.label = some .repeated then
    if isMapField msg.pool field then
      match (msg.getField number).getD (.map []) with
      | .map entries =>
        .ok { msg with fields := SortedMap.insert msg.fields number (.map (entries ++ [entryOf val])) }
      | _ => .panic
    else .ok { msg with fields := SortedMap.upsert msg.fields number fun stored => appendValue stored val }
  else .ok { msg with fields := SortedMap.insert msg.fields number val }

/-- The extension a number decodes as. -/
def extensionFor (pool : DescriptorPool) (descriptor : DescriptorProto) (number : Int32) :
    Option FieldDescriptorProto :=
  if inExtensionRange descriptor number then pool.getExtension number else none

/-- One pass of the decode loop. -/
def decodeStep (recurse : Recurse) (pool : DescriptorPool) (descriptor : DescriptorProto)
    (state : DynamicMessage × Reader) : ReflectResult (DynamicMessage × Reader) := do
  let (msg, reader) := state
  let (tag, reader) ← reader.readTag.mapErr .wire
  let number := tag.fieldNumber.toInt32
  match descriptor.findFieldByNumber number with
  | some field => do
    let (val, reader) ← decodeOne recurse pool field tag.wireType reader
    let msg ← insertField msg field val
    .ok (msg, reader)
  | none =>
    match extensionFor pool descriptor number with
    | some ext => do
      let (val, reader) ← decodeOne recurse pool ext tag.wireType reader
      .ok ({ msg with
        extensions := SortedMap.insert msg.extensions (ext.number.getD number) val }, reader)
    | none => do
      let (unknown, reader) ← (msg.unknown.stored tag reader).mapErr .wire
      .ok ({ msg with unknown }, reader)

def decodeWith (recurse : Recurse) (pool : DescriptorPool) (descriptor : DescriptorProto)
    (reader : Reader) : ReflectResult DynamicMessage := do
  let (msg, _) ← reader.drain (decodeStep recurse pool descriptor) (.new descriptor pool)
  .ok msg

/-- Decoding with a bound on the nesting of messages. -/
def decodeNested (pool : DescriptorPool) : Nat → Recurse
  | 0 => fun _ _ => .outOfFuel
  | fuel + 1 => decodeWith (decodeNested pool fuel) pool

/-- `DynamicMessage::decode`. A nested body is shorter than the buffer it lies in. -/
def DynMsg.decode (pool : DescriptorPool) (descriptor : DescriptorProto) (reader : Reader) :
    ReflectResult DynamicMessage :=
  decodeNested pool (reader.buf.length + 1) descriptor reader

def writeScalarValue (t : FieldType) (value : Value) : ReflectResult (List UInt8) :=
  match t, value with
  | .int32, .scalar (.i64 x) => .ok (encodeVarint x.toUInt64)
  | .int64, .scalar (.i64 x) => .ok (encodeVarint x.toUInt64)
  | .uint32, .scalar (.u64 x) => .ok (encodeVarint x)
  | .uint64, .scalar (.u64 x) => .ok (encodeVarint x)
  | .sint32, .scalar (.i64 x) => .ok (encodeVarint (encodeZigzag32 x.toInt32).toUInt64)
  | .sint64, .scalar (.i64 x) => .ok (encodeVarint (encodeZigzag64 x))
  | .fixed32, .scalar (.u64 x) => .ok (writeFixed32 x.toUInt32)
  | .sfixed32, .scalar (.i64 x) => .ok (writeFixed32 x.toUInt64.toUInt32)
  | .fixed64, .scalar (.u64 x) => .ok (writeFixed64 x)
  | .sfixed64, .scalar (.i64 x) => .ok (writeFixed64 x.toUInt64)
  | .float, .scalar (.f64 x) => .ok (writeFixed32 (Ieee.narrow x))
  | .double, .scalar (.f64 x) => .ok (writeFixed64 x)
  | .bool, .scalar (.bool b) => .ok (encodeVarint (boolWord b))
  | .string, .scalar (.string s) => .ok (writeLengthDelimited (asBytes s))
  | .bytes, .scalar (.bytes b) => .ok (writeLengthDelimited b)
  | .enum, .enum e => .ok (encodeVarint (int32Word e))
  | _, _ => .err (.typeMismatch "scalar encode")

/-- The field number as the writer takes it. -/
def fieldNumber (field : FieldDescriptorProto) : UInt32 := (field.number.getD 0).toUInt32

/-- A tag followed by bytes already written. -/
def tagged (field : FieldDescriptorProto) (wireType : WireType) (body : List UInt8) :
    ReflectResult (List UInt8) := do
  let tag ← writeTag (fieldNumber field) wireType
  .ok (tag ++ body)

/-- What encodes one field value, given the pool and the field. -/
abbrev Encoder := DescriptorPool → FieldDescriptorProto → ReflectResult (List UInt8)

def encodeList (field : FieldDescriptorProto) (items : List Value) : ReflectResult (List UInt8) :=
  let t := field.type.getD .string
  if packedAllowed t then do
    let inner ← writeEach (writeScalarValue t) items
    tagged field .lengthDelimited (writeLengthDelimited inner)
  else
    writeEach (fun it => do
      let tag ← writeTag (fieldNumber field) (fieldWireType t)
      let body ← writeScalarValue t it
      .ok (tag ++ body)) items

/-- The message part of `encode`, over values that are already encoders. -/
def DynMsg.encodeWith (msg : DynMsg Encoder) : ReflectResult (List UInt8) := do
  let fields ← writeEach (fun entry => do
    let field ← Outcome.ofOption (.unknownField entry.1) (msg.descriptor.findFieldByNumber entry.1)
    entry.2 msg.pool field) msg.fields
  let extensions ← writeEach (fun entry => do
    let field ← Outcome.ofOption (.unknownField entry.1) (msg.pool.getExtension entry.1)
    entry.2 msg.pool field) msg.extensions
  let unknown ← msg.unknown.encode
  .ok (fields ++ extensions ++ unknown)

/-- The message `encode_field` builds for a map entry. -/
def entryMessage {V : Type} (pool : DescriptorPool) (field : FieldDescriptorProto) (entry : V × V) :
    DynMsg V :=
  ((DynMsg.new ((messageType pool field).getD {}) pool).setField 1 entry.1).setField 2 entry.2

def encodeMap (pool : DescriptorPool) (field : FieldDescriptorProto)
    (entries : List (Encoder × Encoder)) : ReflectResult (List UInt8) :=
  writeEach (fun entry => do
    let bytes ← (entryMessage pool field entry).encodeWith
    tagged field .lengthDelimited (writeLengthDelimited bytes)) entries

mutual

/-- `encode_field`, as a function of the value. -/
def Value.encodeField : Value → Encoder
  | .list items => fun _ field => encodeList field items
  | .map entries =>
    let encoders := encodePairs entries
    fun pool field => encodeMap pool field encoders
  | .message dm =>
    let encoded := encodeMessage dm
    fun _ field => do
      let bytes ← encoded
      tagged field .lengthDelimited (writeLengthDelimited bytes)
  | .enum e => fun _ field => tagged field .varint (encodeVarint (int32Word e))
  | .scalar s => fun _ field => do
    let tag ← writeTag (fieldNumber field) (fieldWireType (field.type.getD .string))
    let body ← writeScalarValue (field.type.getD .string) (.scalar s)
    .ok (tag ++ body)

def encodeMessage : DynMsg Value → ReflectResult (List UInt8)
  | ⟨descriptor, fields, extensions, unknown, pool⟩ =>
    DynMsg.encodeWith ⟨descriptor, encodeFields fields, encodeFields extensions, unknown, pool⟩

def encodeFields : List (Int32 × Value) → List (Int32 × Encoder)
  | [] => []
  | (number, value) :: rest => (number, value.encodeField) :: encodeFields rest

def encodePairs : List (Value × Value) → List (Encoder × Encoder)
  | [] => []
  | (key, value) :: rest => (key.encodeField, value.encodeField) :: encodePairs rest

end

/-- `DynamicMessage::encode`. -/
def DynMsg.encode (msg : DynamicMessage) : ReflectResult (List UInt8) := encodeMessage msg

end TptProto.Reflect
