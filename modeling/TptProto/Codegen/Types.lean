import TptProto.Core.Unknown
import TptProto.Descriptor.Types
import TptProto.Foundation.Prim

/-! Generated Rust types and their values. A type name stands for the descriptor the
type was generated from. -/

namespace TptProto.Codegen

open TptProto.Foundation TptProto.Core TptProto.Descriptor

/-- A resolved field value type. -/
inductive TyRef where
  | scalar (type : FieldType)
  | message (fqn : String)
  | enum (fqn : String)
  deriving DecidableEq, Repr

def TyRef.fromField (f : FieldDescriptorProto) : Option TyRef :=
  match f.type with
  | none => none
  | some .message => f.typeName.map .message
  | some .enum => f.typeName.map .enum
  | some other => some (.scalar other)

/-- `scalar_rust`. `String` and `Vec<u8>` are not primitive. -/
def scalarRust : FieldType → Option Prim
  | .double => some .f64
  | .float => some .f32
  | .int64 | .sfixed64 | .sint64 => some .i64
  | .uint64 | .fixed64 => some .u64
  | .int32 | .enum | .sfixed32 | .sint32 => some .i32
  | .fixed32 | .uint32 => some .u32
  | .bool => some .bool
  | .string | .group | .message | .bytes => none

/-- Whether the emitted code follows `proto3` or everything else. -/
inductive SyntaxMode where
  | proto2
  | proto3
  deriving DecidableEq, Repr

def normalizeSyntax (text : String) : SyntaxMode := if text = "proto3" then .proto3 else .proto2

/-- A message with the syntax of its file. -/
structure MessageDef where
  descriptor : DescriptorProto
  mode : SyntaxMode

structure Schema where
  messages : List (String × MessageDef)
  enums : List (String × EnumDescriptorProto)
  mapEntries : List (String × (TyRef × TyRef))

def Schema.enumOf (schema : Schema) (fqn : String) : EnumDescriptorProto :=
  (SortedMap.get? schema.enums fqn).getD {}

inductive Presence where
  | implicit
  | explicit
  | repeated
  deriving DecidableEq, Repr

def presence (mode : SyntaxMode) (f : FieldDescriptorProto) : Presence :=
  match f.label with
  | some .repeated => .repeated
  | some .required => .explicit
  | some .optional =>
    if f.proto3Optional = some true then .explicit
    else if mode = .proto3 then .implicit else .explicit
  | none => .implicit

def isMapField (schema : Schema) (f : FieldDescriptorProto) : Bool :=
  f.label = some .repeated && f.type = some .message &&
    ((f.typeName.map fun name => SortedMap.contains schema.mapEntries name).getD false)

def mapKv (schema : Schema) (f : FieldDescriptorProto) : TyRef × TyRef :=
  (f.typeName.bind fun name => SortedMap.get? schema.mapEntries name).getD
    (.scalar .string, .scalar .int32)

/-- A value of a generated enum: a declared variant by position, or any other number. -/
inductive EnumVal where
  | variant (index : Nat)
  | unknown (value : Int32)
  deriving DecidableEq, Repr

namespace EnumVal

def variantNumber (e : EnumDescriptorProto) (index : Nat) : Int32 :=
  ((e.value[index]?).bind fun v => v.number).getD 0

def asI32 (e : EnumDescriptorProto) : EnumVal → Int32
  | .variant index => variantNumber e index
  | .unknown value => value

def fromI32 (e : EnumDescriptorProto) (v : Int32) : EnumVal :=
  match e.value.findIdx? fun variant => variant.number.getD 0 = v with
  | some index => .variant index
  | none => .unknown v

/-- The value `from_i32` builds for its number. -/
def Canonical (e : EnumDescriptorProto) (v : EnumVal) : Prop := fromI32 e (asI32 e v) = v

instance (e : EnumDescriptorProto) (v : EnumVal) : Decidable (Canonical e v) :=
  inferInstanceAs (Decidable (_ = _))

end EnumVal

/-- A struct field over the type of its values. A hash map lists its entries. -/
inductive Slot (V : Type) where
  | implicit (value : V)
  | explicit (value : Option V)
  | repeated (values : List V)
  | map (entries : List (V × V))

/-- A generated struct: its plain fields by number, its oneofs by declaration with the
number of the variant held, and the unknown fields. -/
structure GenMsg (V : Type) where
  fields : List (UInt32 × Slot V)
  oneofs : List (Option (UInt32 × V))
  unknown : UnknownFieldSet

inductive GenValue where
  | prim (value : Val)
  | string (value : String)
  | bytes (value : List UInt8)
  | enum (value : EnumVal)
  | message (value : GenMsg GenValue)

abbrev Struct := GenMsg GenValue

def Slot.mapValues {V W : Type} (f : V → W) : Slot V → Slot W
  | .implicit value => .implicit (f value)
  | .explicit value => .explicit (value.map f)
  | .repeated values => .repeated (values.map f)
  | .map entries => .map (entries.map fun entry => (f entry.1, f entry.2))

def GenMsg.mapValues {V W : Type} (f : V → W) (msg : GenMsg V) : GenMsg W where
  fields := msg.fields.map fun entry => (entry.1, entry.2.mapValues f)
  oneofs := msg.oneofs.map (Option.map fun held => (held.1, f held.2))
  unknown := msg.unknown

section Fold

variable {R : Type} (node : GenMsg (GenValue × Option R) → R)

mutual

/-- The result at a nested message, from the results at the messages inside it. -/
def GenValue.fold : GenValue → Option R
  | .message value => some (foldStruct value)
  | .prim _ | .string _ | .bytes _ | .enum _ => none

def foldStruct : GenMsg GenValue → R
  | ⟨fields, oneofs, unknown⟩ => node ⟨foldFields fields, foldOneofs oneofs, unknown⟩

def foldFields : List (UInt32 × Slot GenValue) → List (UInt32 × Slot (GenValue × Option R))
  | [] => []
  | (number, slot) :: rest => (number, foldSlot slot) :: foldFields rest

def foldSlot : Slot GenValue → Slot (GenValue × Option R)
  | .implicit value => .implicit (value, value.fold)
  | .explicit none => .explicit none
  | .explicit (some value) => .explicit (some (value, value.fold))
  | .repeated values => .repeated (foldValues values)
  | .map entries => .map (foldEntries entries)

def foldValues : List GenValue → List (GenValue × Option R)
  | [] => []
  | value :: rest => (value, value.fold) :: foldValues rest

def foldEntries :
    List (GenValue × GenValue) → List ((GenValue × Option R) × (GenValue × Option R))
  | [] => []
  | (key, value) :: rest => ((key, key.fold), (value, value.fold)) :: foldEntries rest

def foldOneofs :
    List (Option (UInt32 × GenValue)) → List (Option (UInt32 × (GenValue × Option R)))
  | [] => []
  | none :: rest => none :: foldOneofs rest
  | some (number, value) :: rest => some (number, (value, value.fold)) :: foldOneofs rest

end

private theorem foldValues_eq (values : List GenValue) :
    foldValues node values = values.map fun v => (v, v.fold node) := by
  induction values with
  | nil => simp [foldValues]
  | cons value rest ih => simp [foldValues, ih]

private theorem foldEntries_eq (entries : List (GenValue × GenValue)) :
    foldEntries node entries =
      entries.map fun entry => ((entry.1, entry.1.fold node), (entry.2, entry.2.fold node)) := by
  induction entries with
  | nil => simp [foldEntries]
  | cons entry rest ih => simp [foldEntries, ih]

private theorem foldSlot_eq (slot : Slot GenValue) :
    foldSlot node slot = slot.mapValues fun v => (v, v.fold node) := by
  cases slot with
  | implicit value => simp [foldSlot, Slot.mapValues]
  | explicit value => cases value <;> simp [foldSlot, Slot.mapValues]
  | repeated values => simp [foldSlot, Slot.mapValues, foldValues_eq]
  | map entries => simp [foldSlot, Slot.mapValues, foldEntries_eq]

private theorem foldFields_eq (fields : List (UInt32 × Slot GenValue)) :
    foldFields node fields =
      fields.map fun entry => (entry.1, entry.2.mapValues fun v => (v, v.fold node)) := by
  induction fields with
  | nil => simp [foldFields]
  | cons entry rest ih => simp [foldFields, foldSlot_eq, ih]

private theorem foldOneofs_eq (oneofs : List (Option (UInt32 × GenValue))) :
    foldOneofs node oneofs =
      oneofs.map (Option.map fun held => (held.1, (held.2, held.2.fold node))) := by
  induction oneofs with
  | nil => simp [foldOneofs]
  | cons held rest ih => cases held <;> simp [foldOneofs, ih]

theorem foldStruct_eq (msg : Struct) :
    foldStruct node msg = node (msg.mapValues fun v => (v, v.fold node)) := by
  cases msg
  simp [foldStruct, GenMsg.mapValues, foldFields_eq, foldOneofs_eq]

end Fold

end TptProto.Codegen
