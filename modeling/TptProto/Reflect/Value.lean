import TptProto.Core.Reader
import TptProto.Core.Unknown
import TptProto.Descriptor.Types
import TptProto.Foundation.Ieee

/-! Dynamic messages and the pool that resolves their types. -/

namespace TptProto.Reflect

open TptProto.Foundation TptProto.Core TptProto.Descriptor

/-- A hash map, as its entries in the order it happens to yield them. -/
structure DescriptorPool where
  messages : List (String × DescriptorProto)
  enums : List (String × EnumDescriptorProto)
  extensions : List (Int32 × FieldDescriptorProto)
  syntaxName : String

namespace DescriptorPool

/-- `lookup_*`: by full name without leading dots, else any entry with it as a suffix. -/
def lookup {α : Type} (entries : List (String × α)) (typeName : String) : Option α :=
  let norm := String.ofList (typeName.toList.dropWhile (· = '.'))
  match SortedMap.get? entries norm with
  | some found => some found
  | none =>
    (entries.find? fun entry =>
      entry.1 = norm || ('.' :: norm.toList).isSuffixOf entry.1.toList).map Prod.snd

def lookupMessage (pool : DescriptorPool) (typeName : String) : Option DescriptorProto :=
  lookup pool.messages typeName

def lookupEnum (pool : DescriptorPool) (typeName : String) : Option EnumDescriptorProto :=
  lookup pool.enums typeName

/-- Some name under which the pool holds an equal descriptor. -/
def fullNameByValue (pool : DescriptorPool) (desc : DescriptorProto) : Option String :=
  (pool.messages.find? fun entry => entry.2 = desc).map Prod.fst

def getExtension (pool : DescriptorPool) (number : Int32) : Option FieldDescriptorProto :=
  SortedMap.get? pool.extensions number

end DescriptorPool

/-- Floats are the bit patterns of doubles. -/
inductive ScalarValue where
  | i64 (value : Int64)
  | u64 (value : UInt64)
  | f64 (bits : UInt64)
  | bool (value : Bool)
  | string (value : String)
  | bytes (value : List UInt8)
  deriving DecidableEq, Repr

/-- A dynamic message over the type of its field values. -/
structure DynMsg (V : Type) where
  descriptor : DescriptorProto
  fields : List (Int32 × V)
  extensions : List (Int32 × V)
  unknown : UnknownFieldSet
  pool : DescriptorPool

inductive Value where
  | scalar (value : ScalarValue)
  | enum (value : Int32)
  | message (value : DynMsg Value)
  | list (items : List Value)
  | map (entries : List (Value × Value))

abbrev DynamicMessage := DynMsg Value

inductive ReflectError where
  | wire (error : Error)
  | unknownField (number : Int32)
  | unresolvedType (typeName : String)
  | typeMismatch (what : String)
  deriving DecidableEq, Repr

abbrev ReflectResult := Outcome ReflectError

def inExtensionRange (desc : DescriptorProto) (number : Int32) : Bool :=
  desc.extensionRange.any fun r => r.start ≤ number && number ≤ r.stop

/-- The option bytes contain the two bytes `38 01` next to each other. -/
def isMapEntry (desc : DescriptorProto) : Bool :=
  match desc.options with
  | some bytes => (bytes.zip bytes.tail).any fun pair => pair = (0x38, 0x01)
  | none => false

def fieldWireType : FieldType → WireType
  | .double | .fixed64 | .sfixed64 => .fixed64
  | .float | .fixed32 | .sfixed32 => .fixed32
  | .string | .bytes | .message | .group => .lengthDelimited
  | .int64 | .uint64 | .int32 | .bool | .uint32 | .enum | .sint32 | .sint64 => .varint

def packedAllowed : FieldType → Bool
  | .int32 | .int64 | .uint32 | .uint64 | .sint32 | .sint64 | .bool | .enum | .fixed32 | .fixed64
  | .sfixed32 | .sfixed64 | .float | .double => true
  | .string | .group | .message | .bytes => false

/-- The descriptor a message-typed field names, if the pool has it. -/
def messageType (pool : DescriptorPool) (field : FieldDescriptorProto) : Option DescriptorProto :=
  pool.lookupMessage (field.typeName.getD "")

/-- A message-typed field whose descriptor is flagged as a map entry. A field
without a type name is never one. -/
def isMapField (pool : DescriptorPool) (field : FieldDescriptorProto) : Bool :=
  field.type = some .message &&
    ((field.typeName.bind pool.lookupMessage).map isMapEntry).getD false

namespace DynMsg

variable {V : Type}

def new (descriptor : DescriptorProto) (pool : DescriptorPool) : DynMsg V where
  descriptor
  fields := []
  extensions := []
  unknown := .empty
  pool

def getField (msg : DynMsg V) (number : Int32) : Option V := SortedMap.get? msg.fields number

/-- The oneof a field number belongs to. -/
def oneofOf (msg : DynMsg V) (number : Int32) : Option Int32 :=
  (msg.descriptor.findFieldByNumber number).bind fun f => f.oneofIndex

/-- The numbers of a oneof's members. -/
def members (msg : DynMsg V) (oneof : Int32) : List Int32 :=
  (msg.descriptor.field.filter fun g => g.oneofIndex = some oneof).filterMap fun g => g.number

def removeAll (fields : List (Int32 × V)) (numbers : List Int32) : List (Int32 × V) :=
  numbers.foldl SortedMap.erase fields

def setField (msg : DynMsg V) (number : Int32) (value : V) : DynMsg V :=
  let fields := match msg.oneofOf number with
    | some oneof => removeAll msg.fields ((msg.members oneof).filter fun mem => mem ≠ number)
    | none => msg.fields
  { msg with fields := SortedMap.insert fields number value }

def clearField (msg : DynMsg V) (number : Int32) : DynMsg V :=
  match msg.oneofOf number with
  | some oneof => { msg with fields := removeAll msg.fields (msg.members oneof) }
  | none => { msg with fields := SortedMap.erase msg.fields number }

def whichOneof (msg : DynMsg V) (oneofIndex : Int32) : Option Int32 :=
  (msg.descriptor.field.find? fun f =>
    f.oneofIndex = some oneofIndex && SortedMap.contains msg.fields (f.number.getD 0)).bind
      fun f => f.number

end DynMsg

end TptProto.Reflect
