import TptProto.Codegen.Types
import TptProto.Core.Packed
import TptProto.Core.Reader

/-! The code emitted for repeated fields of packable types. The closures and pushed
expressions are the emitted text; the statements around them are run directly. -/

namespace TptProto.Codegen

open TptProto.Foundation TptProto.Core TptProto.Descriptor

/-- The paths of functions that packed expressions call. -/
inductive Path where
  | coreEncodeZigzag32
  | coreEncodeZigzag64
  | scalarDecodeZigzag32
  | scalarDecodeZigzag64
  | f32FromBits
  | f64FromBits
  deriving DecidableEq, Repr

/-- The function each path is meant to name. -/
def Path.fn : Path → Fn
  | .coreEncodeZigzag32 =>
    ⟨.i32, .u32, fun | .i32 v => .u32 (encodeZigzag32 v) | v => v, by intro v; cases v <;> simp [Val.prim]⟩
  | .coreEncodeZigzag64 =>
    ⟨.i64, .u64, fun | .i64 v => .u64 (encodeZigzag64 v) | v => v, by intro v; cases v <;> simp [Val.prim]⟩
  | .scalarDecodeZigzag32 =>
    ⟨.u32, .i32, fun | .u32 v => .i32 (decodeZigzag32 v) | v => v, by intro v; cases v <;> simp [Val.prim]⟩
  | .scalarDecodeZigzag64 =>
    ⟨.u64, .i64, fun | .u64 v => .i64 (decodeZigzag64 v) | v => v, by intro v; cases v <;> simp [Val.prim]⟩
  | .f32FromBits =>
    ⟨.u32, .f32, fun | .u32 v => .f32 v | v => v, by intro v; cases v <;> simp [Val.prim]⟩
  | .f64FromBits =>
    ⟨.u64, .f64, fun | .u64 v => .f64 v | v => v, by intro v; cases v <;> simp [Val.prim]⟩

/-- The `scalar` module imports the zig-zag decoders for its own use only. -/
def Path.visible : Path → Bool
  | .scalarDecodeZigzag32 | .scalarDecodeZigzag64 => false
  | _ => true

/-- What the paths resolve to in an emitted file. -/
def names (path : Path) : Option Fn := if path.visible then some path.fn else none

def isFixed32 : FieldType → Bool
  | .fixed32 | .sfixed32 | .float => true
  | _ => false

def isFixed64 : FieldType → Bool
  | .fixed64 | .sfixed64 | .double => true
  | _ => false

def isVarint (t : FieldType) : Bool :=
  !isFixed32 t && !isFixed64 t && !(t = .string || t = .bytes || t = .message || t = .group)

/-- An enum's operand is the result of its `as_i32`. -/
def packTo : FieldType → Expr Path
  | .int32 | .int64 | .uint32 | .uint64 | .bool | .enum => .cast .var .u64
  | .sint32 => .cast (.call .coreEncodeZigzag32 .var) .u64
  | .sint64 => .call .coreEncodeZigzag64 .var
  | .fixed32 | .sfixed32 => .cast .var .u32
  | .fixed64 | .sfixed64 => .cast .var .u64
  | _ => .cast .var .u64

def packFrom : FieldType → Expr Path
  | .int32 | .enum => .cast .var .i32
  | .int64 => .cast .var .i64
  | .uint32 => .cast .var .u32
  | .uint64 => .var
  | .bool => .nonzero .var
  | .sint32 => .call .scalarDecodeZigzag32 (.cast .var .u32)
  | .sint64 => .call .scalarDecodeZigzag64 .var
  | .fixed32 | .fixed64 => .var
  | .sfixed32 => .cast .var .i32
  | .sfixed64 => .cast .var .i64
  | .float => .call .f32FromBits .var
  | .double => .call .f64FromBits .var
  | _ => .var

/-- Which of the three packed writers and readers a field uses. -/
inductive PackedForm where
  | varint
  | fixed32
  | fixed64
  deriving DecidableEq, Repr

/-- The type of the items a packed writer takes. -/
def PackedForm.item : PackedForm → Prim
  | .varint | .fixed64 => .u64
  | .fixed32 => .u32

def PackedForm.wireType : PackedForm → WireType
  | .varint => .varint
  | .fixed32 => .fixed32
  | .fixed64 => .fixed64

/-- `dec_scalar_expr` of a primitive type, run. Other types are `unreachable!()`. -/
def readPrim (t : FieldType) (r : Reader) : Result (Val × Reader) :=
  match t with
  | .int32 => Reader.readAs .i32 Reader.readInt32 r
  | .int64 => Reader.readAs .i64 Reader.readInt64 r
  | .uint32 => Reader.readAs .u32 Reader.readUint32 r
  | .uint64 => Reader.readAs .u64 Reader.readUint64 r
  | .bool => Reader.readAs .bool Reader.readBool r
  | .sint32 => Reader.readAs .i32 Reader.readSint32 r
  | .sint64 => Reader.readAs .i64 Reader.readSint64 r
  | .fixed32 => Reader.readAs .u32 Reader.readFixed32 r
  | .sfixed32 => Reader.readAs .i32 Reader.readSfixed32 r
  | .fixed64 => Reader.readAs .u64 Reader.readFixed64 r
  | .sfixed64 => Reader.readAs .i64 Reader.readSfixed64 r
  | .float => Reader.readAs .f32 Reader.readFloat r
  | .double => Reader.readAs .f64 Reader.readDouble r
  | .string | .bytes | .message | .group | .enum => .panic

/-- The operand of an enum's closure, or of a primitive type's. -/
def operand (schema : Schema) (ty : TyRef) (value : GenValue) : Val :=
  match ty, value with
  | .enum fqn, .enum v => .i32 (v.asI32 (schema.enumOf fqn))
  | _, .prim v => v
  | _, _ => .bool false

/-- What a pushed expression's value becomes: `En::from_i32(raw)`, or itself. -/
def element (schema : Schema) (ty : TyRef) (value : Val) : GenValue :=
  match ty, value with
  | .enum fqn, .i32 v => .enum (.fromI32 (schema.enumOf fqn) v)
  | _, v => .prim v

/-- `if !target.is_empty() { encode_packed_*(w, num, target.iter().map(closure)) }`. -/
structure PackedEncode where
  form : PackedForm
  closure : Expr Path
  deriving DecidableEq, Repr

/-- `for raw in read_packed_*(r, ..)? { target.push(pushed) }`. -/
structure PackedDecode where
  form : PackedForm
  readOne : FieldType
  pushed : Expr Path
  deriving DecidableEq, Repr

/-- The type a field's closure takes and its pushed expression must have. -/
def TyRef.prim : TyRef → Option Prim
  | .scalar t => if t = .enum then none else scalarRust t
  | .enum _ => some .i32
  | .message _ => none

/-- The code `gen_repeated_encode` emits where it packs. -/
def genPackedEncode (ty : TyRef) : Option PackedEncode :=
  match ty with
  | .enum _ => some ⟨.varint, packTo .enum⟩
  | .scalar t =>
    if isFixed32 t then some ⟨.fixed32, .cast .var .u32⟩
    else if isFixed64 t then some ⟨.fixed64, .cast .var .u64⟩
    else if isVarint t then some ⟨.varint, packTo t⟩ else none
  | .message _ => none

/-- The length-delimited arm that `gen_repeated_decode` emits where it packs. -/
def genPackedDecode (ty : TyRef) : Option PackedDecode :=
  match ty with
  | .enum _ => some ⟨.varint, .int32, .var⟩
  | .scalar t =>
    if isVarint t then some ⟨.varint, t, packFrom t⟩
    else if isFixed32 t then some ⟨.fixed32, t, packFrom t⟩
    else if isFixed64 t then some ⟨.fixed64, t, packFrom t⟩ else none
  | .message _ => none

/-- The type of `raw`. -/
def PackedDecode.raw (code : PackedDecode) : Option Prim :=
  match code.form with
  | .varint => scalarRust code.readOne
  | .fixed32 => some .u32
  | .fixed64 => some .u64

def PackedEncode.Compiles (code : PackedEncode) (elem : Option Prim) : Prop :=
  elem.bind (code.closure.typeOf names) = some code.form.item

def PackedDecode.Compiles (code : PackedDecode) (elem : Option Prim) : Prop :=
  (code.raw.bind (code.pushed.typeOf names)).isSome ∧ code.raw.bind (code.pushed.typeOf names) = elem

instance (code : PackedEncode) (elem : Option Prim) : Decidable (code.Compiles elem) :=
  inferInstanceAs (Decidable (_ = _))

instance (code : PackedDecode) (elem : Option Prim) : Decidable (code.Compiles elem) :=
  inferInstanceAs (Decidable (_ ∧ _))

/-- An expression run on a value. Code that does not type-check is never run. -/
def run (e : Expr Path) (v : Val) : Val := (e.eval names v).getD v

def PackedEncode.run (code : PackedEncode) (schema : Schema) (ty : TyRef) (number : UInt32)
    (values : List GenValue) : Result (List UInt8) :=
  let items := values.map fun v => Codegen.run code.closure (operand schema ty v)
  if values.isEmpty then .ok []
  else match code.form with
    | .varint => encodePackedVarint number (items.map Val.asU64)
    | .fixed32 => encodePackedFixed32 number (items.map Val.asU32)
    | .fixed64 => encodePackedFixed64 number (items.map Val.asU64)

def PackedDecode.readRaw (code : PackedDecode) (r : Reader) : Result (List Val × Reader) :=
  match code.form with
  | .varint => Reader.readPackedVarint (readPrim code.readOne) r
  | .fixed32 => Reader.readAs (List.map .u32) Reader.readPackedFixed32 r
  | .fixed64 => Reader.readAs (List.map .u64) Reader.readPackedFixed64 r

def PackedDecode.run (code : PackedDecode) (schema : Schema) (ty : TyRef) (r : Reader) :
    Result (List GenValue × Reader) := do
  let (raws, r) ← code.readRaw r
  .ok (raws.map fun raw => element schema ty (Codegen.run code.pushed raw), r)

end TptProto.Codegen
