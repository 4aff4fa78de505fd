import TptProto.Core.Table
import TptProto.Descriptor.Types

/-! The decoders of the descriptor messages: one table of arms, in the order of the
source's matches. -/

namespace TptProto.Descriptor

open TptProto.Core

/-- The message types that decode one another. -/
inductive Kind where
  | set
  | file
  | message
  | field
  | enum
  | enumValue
  | oneof
  | service
  | method
  | sourceCodeInfo
  | location
  | reservedRange
  | extensionRange
  deriving DecidableEq, Repr

abbrev Kind.Data : Kind → Type
  | set => FileDescriptorSet
  | file => FileDescriptorProto
  | message => DescriptorProto
  | field => FieldDescriptorProto
  | enum => EnumDescriptorProto
  | enumValue => EnumValueDescriptorProto
  | oneof => OneofDescriptorProto
  | service => ServiceDescriptorProto
  | method => MethodDescriptorProto
  | sourceCodeInfo => SourceCodeInfo
  | location => Location
  | reservedRange => ReservedRange
  | extensionRange => ExtensionRange

def Kind.start : (kind : Kind) → kind.Data
  | set => {}
  | file => {}
  | message => {}
  | field => {}
  | enum => {}
  | enumValue => {}
  | oneof => {}
  | service => {}
  | method => {}
  | sourceCodeInfo => {}
  | location => {}
  | reservedRange => {}
  | extensionRange => {}

/-- What an arm of a descriptor message may do. -/
abbrev DescriptorArm (D : Type) := Arm Kind.Data D

/-- `sub.merge_from(&mut r.nested(body)?)?` followed by a push or an assignment. -/
abbrev DescriptorArm.sub {D : Type} (kind : Kind) (set : kind.Data → D → D) : DescriptorArm D :=
  .message .nested kind set

def FileDescriptorSet.arms (number : UInt32) (wireType : WireType) :
    Option (DescriptorArm FileDescriptorSet) :=
  match number.toNat, wireType with
  | 1, .lengthDelimited =>
    some (.message .fresh .file fun sub self => { self with file := self.file ++ [sub] })
  | _, _ => none

def FileDescriptorProto.arms (number : UInt32) (wireType : WireType) :
    Option (DescriptorArm FileDescriptorProto) :=
  match number.toNat, wireType with
  | 1, .lengthDelimited => some (.string fun value self => { self with name := some value })
  | 2, .lengthDelimited => some (.string fun value self => { self with package := some value })
  | 3, .lengthDelimited =>
    some (.string fun value self => { self with dependency := self.dependency ++ [value] })
  | 10, .varint =>
    some (.int32 fun value self => { self with publicDependency := self.publicDependency ++ [value] })
  | 11, .varint =>
    some (.int32 fun value self => { self with weakDependency := self.weakDependency ++ [value] })
  | 4, .lengthDelimited =>
    some (.sub .message fun sub self => { self with messageType := self.messageType ++ [sub] })
  | 5, .lengthDelimited =>
    some (.sub .enum fun sub self => { self with enumType := self.enumType ++ [sub] })
  | 6, .lengthDelimited =>
    some (.sub .service fun sub self => { self with service := self.service ++ [sub] })
  | 7, .lengthDelimited =>
    some (.sub .field fun sub self => { self with extension := self.extension ++ [sub] })
  | 8, .lengthDelimited => some (.bytes fun value self => { self with options := some value })
  | 9, .lengthDelimited =>
    some (.sub .sourceCodeInfo fun sub self => { self with sourceCodeInfo := some sub })
  | 12, .lengthDelimited => some (.string fun value self => { self with syntaxName := some value })
  | _, _ => none

def SourceCodeInfo.arms (number : UInt32) (wireType : WireType) :
    Option (DescriptorArm SourceCodeInfo) :=
  match number.toNat, wireType with
  | 1, .lengthDelimited =>
    some (.sub .location fun sub self => { self with locations := self.locations ++ [sub] })
  | _, _ => none

def Location.arms (number : UInt32) (wireType : WireType) : Option (DescriptorArm Location) :=
  match number.toNat, wireType with
  | 1, .varint => some (.int32 fun value self => { self with path := self.path ++ [value] })
  | 2, .varint => some (.int32 fun value self => { self with span := self.span ++ [value] })
  | 3, .lengthDelimited =>
    some (.string fun value self => { self with leadingComments := some value })
  | 4, .lengthDelimited =>
    some (.string fun value self => { self with trailingComments := some value })
  | 6, .lengthDelimited =>
    some (.string fun value self =>
      { self with leadingDetachedComments := self.leadingDetachedComments ++ [value] })
  | _, _ => none

def DescriptorProto.arms (number : UInt32) (wireType : WireType) :
    Option (DescriptorArm DescriptorProto) :=
  match number.toNat, wireType with
  | 1, .lengthDelimited => some (.string fun value self => { self with name := some value })
  | 2, .lengthDelimited =>
    some (.sub .field fun sub self => { self with field := self.field ++ [sub] })
  | 6, .lengthDelimited =>
    some (.sub .field fun sub self => { self with extension := self.extension ++ [sub] })
  | 3, .lengthDelimited =>
    some (.sub .message fun sub self => { self with nestedType := self.nestedType ++ [sub] })
  | 4, .lengthDelimited =>
    some (.sub .enum fun sub self => { self with enumType := self.enumType ++ [sub] })
  | 5, .lengthDelimited =>
    some (.sub .extensionRange fun sub self =>
      { self with extensionRange := self.extensionRange ++ [sub] })
  | 8, .lengthDelimited =>
    some (.sub .oneof fun sub self => { self with oneofDecl := self.oneofDecl ++ [sub] })
  | 7, .lengthDelimited => some (.bytes fun value self => { self with options := some value })
  | 9, .lengthDelimited =>
    some (.sub .reservedRange fun sub self =>
      { self with reservedRange := self.reservedRange ++ [sub] })
  | 10, .lengthDelimited =>
    some (.string fun value self => { self with reservedName := self.reservedName ++ [value] })
  | _, _ => none

def ReservedRange.arms (number : UInt32) (wireType : WireType) :
    Option (DescriptorArm ReservedRange) :=
  match number.toNat, wireType with
  | 1, .varint => some (.int32 fun value self => { self with start := value })
  | 2, .varint => some (.int32 fun value self => { self with stop := value })
  | _, _ => none

def ExtensionRange.arms (number : UInt32) (wireType : WireType) :
    Option (DescriptorArm ExtensionRange) :=
  match number.toNat, wireType with
  | 1, .varint => some (.int32 fun value self => { self with start := value })
  | 2, .varint => some (.int32 fun value self => { self with stop := value })
  | _, _ => none

def FieldDescriptorProto.arms (number : UInt32) (wireType : WireType) :
    Option (DescriptorArm FieldDescriptorProto) :=
  match number.toNat, wireType with
  | 1, .lengthDelimited => some (.string fun value self => { self with name := some value })
  | 2, .lengthDelimited => some (.string fun value self => { self with extendee := some value })
  | 3, .varint => some (.int32 fun value self => { self with number := some value })
  | 4, .varint => some (.int32 fun value self => { self with label := Label.fromI32 value })
  | 5, .varint => some (.int32 fun value self => { self with type := FieldType.fromI32 value })
  | 6, .lengthDelimited => some (.string fun value self => { self with typeName := some value })
  | 7, .lengthDelimited => some (.string fun value self => { self with defaultValue := some value })
  | 8, .lengthDelimited => some (.bytes fun value self => { self with options := some value })
  | 9, .varint => some (.int32 fun value self => { self with oneofIndex := some value })
  | 10, .lengthDelimited => some (.string fun value self => { self with jsonName := some value })
  | 17, .varint => some (.bool fun value self => { self with proto3Optional := some value })
  | _, _ => none

def EnumDescriptorProto.arms (number : UInt32) (wireType : WireType) :
    Option (DescriptorArm EnumDescriptorProto) :=
  match number.toNat, wireType with
  | 1, .lengthDelimited => some (.string fun value self => { self with name := some value })
  | 2, .lengthDelimited =>
    some (.sub .enumValue fun sub self => { self with value := self.value ++ [sub] })
  | 3, .lengthDelimited => some (.bytes fun value self => { self with options := some value })
  | 4, .lengthDelimited =>
    some (.sub .reservedRange fun sub self =>
      { self with reservedRange := self.reservedRange ++ [sub] })
  | 5, .lengthDelimited =>
    some (.string fun value self => { self with reservedName := self.reservedName ++ [value] })
  | _, _ => none

def EnumValueDescriptorProto.arms (number : UInt32) (wireType : WireType) :
    Option (DescriptorArm EnumValueDescriptorProto) :=
  match number.toNat, wireType with
  | 1, .lengthDelimited => some (.string fun value self => { self with name := some value })
  | 2, .varint => some (.int32 fun value self => { self with number := some value })
  | 3, .lengthDelimited => some (.bytes fun value self => { self with options := some value })
  | _, _ => none

def OneofDescriptorProto.arms (number : UInt32) (wireType : WireType) :
    Option (DescriptorArm OneofDescriptorProto) :=
  match number.toNat, wireType with
  | 1, .lengthDelimited => some (.string fun value self => { self with name := some value })
  | 2, .lengthDelimited => some (.bytes fun value self => { self with options := some value })
  | _, _ => none

def ServiceDescriptorProto.arms (number : UInt32) (wireType : WireType) :
    Option (DescriptorArm ServiceDescriptorProto) :=
  match number.toNat, wireType with
  | 1, .lengthDelimited => some (.string fun value self => { self with name := some value })
  | 2, .lengthDelimited =>
    some (.sub .method fun sub self => { self with method := self.method ++ [sub] })
  | 3, .lengthDelimited => some (.bytes fun value self => { self with options := some value })
  | _, _ => none

def MethodDescriptorProto.arms (number : UInt32) (wireType : WireType) :
    Option (DescriptorArm MethodDescriptorProto) :=
  match number.toNat, wireType with
  | 1, .lengthDelimited => some (.string fun value self => { self with name := some value })
  | 2, .lengthDelimited => some (.string fun value self => { self with inputType := some value })
  | 3, .lengthDelimited => some (.string fun value self => { self with outputType := some value })
  | 4, .lengthDelimited => some (.bytes fun value self => { self with options := some value })
  | 5, .varint => some (.bool fun value self => { self with clientStreaming := some value })
  | 6, .varint => some (.bool fun value self => { self with serverStreaming := some value })
  | _, _ => none

/-- All descriptor decoders. -/
def descriptors : Table where
  Kind := Kind
  Data := Kind.Data
  start := Kind.start
  arms
    | .set => FileDescriptorSet.arms
    | .file => FileDescriptorProto.arms
    | .message => DescriptorProto.arms
    | .field => FieldDescriptorProto.arms
    | .enum => EnumDescriptorProto.arms
    | .enumValue => EnumValueDescriptorProto.arms
    | .oneof => OneofDescriptorProto.arms
    | .service => ServiceDescriptorProto.arms
    | .method => MethodDescriptorProto.arms
    | .sourceCodeInfo => SourceCodeInfo.arms
    | .location => Location.arms
    | .reservedRange => ReservedRange.arms
    | .extensionRange => ExtensionRange.arms

end TptProto.Descriptor
