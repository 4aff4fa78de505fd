import TptProto.Core.Bytes

/-! The descriptor messages. Options are opaque serialized bytes. -/

namespace TptProto.Descriptor

inductive FieldType where
  | double
  | float
  | int64
  | uint64
  | int32
  | fixed64
  | fixed32
  | bool
  | string
  | group
  | message
  | bytes
  | uint32
  | enum
  | sfixed32
  | sfixed64
  | sint32
  | sint64
  deriving DecidableEq, Repr

def FieldType.asI32 : FieldType → Int32
  | .double => 1
  | .float => 2
  | .int64 => 3
  | .uint64 => 4
  | .int32 => 5
  | .fixed64 => 6
  | .fixed32 => 7
  | .bool => 8
  | .string => 9
  | .group => 10
  | .message => 11
  | .bytes => 12
  | .uint32 => 13
  | .enum => 14
  | .sfixed32 => 15
  | .sfixed64 => 16
  | .sint32 => 17
  | .sint64 => 18

/-- The types of map keys: integers, booleans and strings. -/
def FieldType.IsKey (t : FieldType) : Prop :=
  t ≠ .float ∧ t ≠ .double ∧ t ≠ .bytes ∧ t ≠ .enum ∧ t ≠ .message ∧ t ≠ .group

instance (t : FieldType) : Decidable t.IsKey := inferInstanceAs (Decidable (_ ∧ _))

def FieldType.fromI32 (v : Int32) : Option FieldType :=
  match v.toInt with
  | 1 => some .double
  | 2 => some .float
  | 3 => some .int64
  | 4 => some .uint64
  | 5 => some .int32
  | 6 => some .fixed64
  | 7 => some .fixed32
  | 8 => some .bool
  | 9 => some .string
  | 10 => some .group
  | 11 => some .message
  | 12 => some .bytes
  | 13 => some .uint32
  | 14 => some .enum
  | 15 => some .sfixed32
  | 16 => some .sfixed64
  | 17 => some .sint32
  | 18 => some .sint64
  | _ => none

inductive Label where
  | optional
  | required
  | repeated
  deriving DecidableEq, Repr

def Label.asI32 : Label → Int32
  | .optional => 1
  | .required => 2
  | .repeated => 3

def Label.fromI32 (v : Int32) : Option Label :=
  match v.toInt with
  | 1 => some .optional
  | 2 => some .required
  | 3 => some .repeated
  | _ => none

structure Location where
  path : List Int32 := []
  span : List Int32 := []
  leadingComments : Option String := none
  trailingComments : Option String := none
  leadingDetachedComments : List String := []
  deriving DecidableEq, Repr

structure SourceCodeInfo where
  locations : List Location := []
  deriving DecidableEq, Repr

structure ReservedRange where
  start : Int32 := 0
  stop : Int32 := 0
  deriving DecidableEq, Repr

structure ExtensionRange where
  start : Int32 := 0
  stop : Int32 := 0
  deriving DecidableEq, Repr

structure FieldDescriptorProto where
  name : Option String := none
  number : Option Int32 := none
  label : Option Label := none
  type : Option FieldType := none
  typeName : Option String := none
  extendee : Option String := none
  defaultValue : Option String := none
  oneofIndex : Option Int32 := none
  jsonName : Option String := none
  options : Option (List UInt8) := none
  proto3Optional : Option Bool := none
  deriving DecidableEq, Repr

structure EnumValueDescriptorProto where
  name : Option String := none
  number : Option Int32 := none
  options : Option (List UInt8) := none
  deriving DecidableEq, Repr

structure EnumDescriptorProto where
  name : Option String := none
  value : List EnumValueDescriptorProto := []
  options : Option (List UInt8) := none
  reservedRange : List ReservedRange := []
  reservedName : List String := []
  deriving DecidableEq, Repr

structure OneofDescriptorProto where
  name : Option String := none
  options : Option (List UInt8) := none
  deriving DecidableEq, Repr

structure DescriptorProto where
  name : Option String := none
  field : List FieldDescriptorProto := []
  extension : List FieldDescriptorProto := []
  nestedType : List DescriptorProto := []
  enumType : List EnumDescriptorProto := []
  extensionRange : List ExtensionRange := []
  oneofDecl : List OneofDescriptorProto := []
  options : Option (List UInt8) := none
  reservedRange : List ReservedRange := []
  reservedName : List String := []

structure MethodDescriptorProto where
  name : Option String := none
  inputType : Option String := none
  outputType : Option String := none
  options : Option (List UInt8) := none
  clientStreaming : Option Bool := none
  serverStreaming : Option Bool := none
  deriving DecidableEq, Repr

structure ServiceDescriptorProto where
  name : Option String := none
  method : List MethodDescriptorProto := []
  options : Option (List UInt8) := none
  deriving DecidableEq, Repr

structure FileDescriptorProto where
  name : Option String := none
  package : Option String := none
  dependency : List String := []
  publicDependency : List Int32 := []
  weakDependency : List Int32 := []
  messageType : List DescriptorProto := []
  enumType : List EnumDescriptorProto := []
  service : List ServiceDescriptorProto := []
  extension : List FieldDescriptorProto := []
  options : Option (List UInt8) := none
  sourceCodeInfo : Option SourceCodeInfo := none
  syntaxName : Option String := none

structure FileDescriptorSet where
  file : List FileDescriptorProto := []

namespace DescriptorProto

def findFieldByNumber (desc : DescriptorProto) (number : Int32) : Option FieldDescriptorProto :=
  desc.field.find? fun f => f.number = some number

theorem induction {motive : DescriptorProto → Prop}
    (step : ∀ m : DescriptorProto, (∀ n ∈ m.nestedType, motive n) → motive m)
    (m : DescriptorProto) : motive m := by
  refine DescriptorProto.rec (motive_1 := motive)
    (motive_2 := fun ms => ∀ n ∈ ms, motive n) ?_ ?_ ?_ m
  · intro _ _ _ _ _ _ _ _ _ _ nested
    exact step _ nested
  · simp
  · intro head tail first rest n member
    rcases List.mem_cons.mp member with rfl | inside
    · exact first
    · exact rest n inside

mutual

def decEq : (first second : DescriptorProto) → Decidable (first = second)
  | ⟨name, field, extension, nested, enums, ranges, oneofs, options, reserved, names⟩,
    ⟨name', field', extension', nested', enums', ranges', oneofs', options', reserved', names'⟩ =>
    have split : (name = name' ∧ field = field' ∧ extension = extension') ∧
        nested = nested' ∧ (enums = enums' ∧ ranges = ranges' ∧ oneofs = oneofs') ∧
          options = options' ∧ reserved = reserved' ∧ names = names' ↔
        (⟨name, field, extension, nested, enums, ranges, oneofs, options, reserved, names⟩ :
          DescriptorProto) =
        ⟨name', field', extension', nested', enums', ranges', oneofs', options', reserved',
          names'⟩ := by
      simp [and_assoc]
    have : Decidable (nested = nested') := decEqNested nested nested'
    decidable_of_iff _ split

def decEqNested : (first second : List DescriptorProto) → Decidable (first = second)
  | [], [] => isTrue rfl
  | [], _ :: _ => isFalse nofun
  | _ :: _, [] => isFalse nofun
  | head :: tail, head' :: tail' =>
    match decEq head head', decEqNested tail tail' with
    | isTrue same, isTrue rest => isTrue (by rw [same, rest])
    | isFalse different, _ => isFalse fun same => different (List.cons.inj same).1
    | _, isFalse different => isFalse fun same => different (List.cons.inj same).2

end

instance : DecidableEq DescriptorProto := decEq

end DescriptorProto

@[simp] theorem Label.fromI32_asI32 (label : Label) : fromI32 label.asI32 = some label := by
  cases label <;> rfl

@[simp] theorem FieldType.fromI32_asI32 (type : FieldType) : fromI32 type.asI32 = some type := by
  cases type <;> rfl

end TptProto.Descriptor
