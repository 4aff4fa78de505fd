import TptProto.Core.Reader
import TptProto.Descriptor.Types

/-! The encoders of the descriptor messages: their parts in the order they are written. -/

namespace TptProto.Descriptor

open TptProto.Foundation TptProto.Core

/-- What is written for a value that may be absent. -/
def encodeOpt {α : Type} (encode : UInt32 → α → Result (List UInt8)) (field : UInt32)
    (v : Option α) : Result (List UInt8) :=
  match v with
  | some value => encode field value
  | none => .ok []

def encodeOptStr : UInt32 → Option String → Result (List UInt8) := encodeOpt encodeString
def encodeOptI32 : UInt32 → Option Int32 → Result (List UInt8) := encodeOpt encodeInt32
def encodeOptBool : UInt32 → Option Bool → Result (List UInt8) := encodeOpt encodeBool
def encodeOptBytes : UInt32 → Option (List UInt8) → Result (List UInt8) := encodeOpt encodeBytes

def encodeRepeatedStr (field : UInt32) : List String → Result (List UInt8) :=
  writeEach (encodeString field)

def encodeRepeatedI32 (field : UInt32) : List Int32 → Result (List UInt8) :=
  writeEach (encodeInt32 field)

/-- Each message of a list as a field of its own. -/
def encodeRepeated {α : Type} (encode : α → Result (List UInt8)) (field : UInt32) :
    List α → Result (List UInt8) :=
  writeEach fun m => writeMessage field (encode m)

/-- The statements of an encoder, in order. -/
def inOrder : List (Result (List UInt8)) → Result (List UInt8) := writeEach id

def Location.encode (self : Location) : Result (List UInt8) :=
  inOrder [
    encodeRepeatedI32 1 self.path,
    encodeRepeatedI32 2 self.span,
    encodeOptStr 3 self.leadingComments,
    encodeOptStr 4 self.trailingComments,
    encodeRepeatedStr 6 self.leadingDetachedComments]

def SourceCodeInfo.encode (self : SourceCodeInfo) : Result (List UInt8) :=
  encodeRepeated Location.encode 1 self.locations

def ReservedRange.encode (self : ReservedRange) : Result (List UInt8) :=
  inOrder [
    encodeOptI32 1 (if self.start ≠ 0 then some self.start else none),
    encodeOptI32 2 (if self.stop ≠ 0 then some self.stop else none)]

def ExtensionRange.encode (self : ExtensionRange) : Result (List UInt8) :=
  inOrder [
    encodeOptI32 1 (if self.start ≠ 0 then some self.start else none),
    encodeOptI32 2 (if self.stop ≠ 0 then some self.stop else none)]

def FieldDescriptorProto.encode (self : FieldDescriptorProto) : Result (List UInt8) :=
  inOrder [
    encodeOptStr 1 self.name,
    encodeOptStr 2 self.extendee,
    encodeOptI32 3 self.number,
    encodeOptI32 4 (self.label.map Label.asI32),
    encodeOptI32 5 (self.type.map FieldType.asI32),
    encodeOptStr 6 self.typeName,
    encodeOptStr 7 self.defaultValue,
    encodeOptI32 9 self.oneofIndex,
    encodeOptStr 10 self.jsonName,
    encodeOptBytes 8 self.options,
    encodeOptBool 17 self.proto3Optional]

def EnumValueDescriptorProto.encode (self : EnumValueDescriptorProto) : Result (List UInt8) :=
  inOrder [
    encodeOptStr 1 self.name,
    encodeOptI32 2 self.number,
    encodeOptBytes 3 self.options]

def EnumDescriptorProto.encode (self : EnumDescriptorProto) : Result (List UInt8) :=
  inOrder [
    encodeOptStr 1 self.name,
    encodeRepeated EnumValueDescriptorProto.encode 2 self.value,
    encodeOptBytes 3 self.options,
    encodeRepeated ReservedRange.encode 4 self.reservedRange,
    encodeRepeatedStr 5 self.reservedName]

def OneofDescriptorProto.encode (self : OneofDescriptorProto) : Result (List UInt8) :=
  inOrder [
    encodeOptStr 1 self.name,
    encodeOptBytes 2 self.options]

mutual

def DescriptorProto.encode : DescriptorProto → Result (List UInt8)
  | ⟨name, field, extension, nestedType, enumType, extensionRange, oneofDecl, options,
      reservedRange, reservedName⟩ =>
    inOrder [
      encodeOptStr 1 name,
      encodeRepeated FieldDescriptorProto.encode 2 field,
      encodeRepeated FieldDescriptorProto.encode 6 extension,
      DescriptorProto.encodeAll nestedType,
      encodeRepeated EnumDescriptorProto.encode 4 enumType,
      encodeRepeated ExtensionRange.encode 5 extensionRange,
      encodeRepeated OneofDescriptorProto.encode 8 oneofDecl,
      encodeOptBytes 7 options,
      encodeRepeated ReservedRange.encode 9 reservedRange,
      encodeRepeatedStr 10 reservedName]

/-- The nested messages, each as field 3. -/
def DescriptorProto.encodeAll : List DescriptorProto → Result (List UInt8)
  | [] => .ok []
  | n :: rest => do
    let head ← writeMessage 3 (DescriptorProto.encode n)
    let tail ← DescriptorProto.encodeAll rest
    .ok (head ++ tail)

end

def MethodDescriptorProto.encode (self : MethodDescriptorProto) : Result (List UInt8) :=
  inOrder [
    encodeOptStr 1 self.name,
    encodeOptStr 2 self.inputType,
    encodeOptStr 3 self.outputType,
    encodeOptBytes 4 self.options,
    encodeOptBool 5 self.clientStreaming,
    encodeOptBool 6 self.serverStreaming]

def ServiceDescriptorProto.encode (self : ServiceDescriptorProto) : Result (List UInt8) :=
  inOrder [
    encodeOptStr 1 self.name,
    encodeRepeated MethodDescriptorProto.encode 2 self.method,
    encodeOptBytes 3 self.options]

def FileDescriptorProto.encode (self : FileDescriptorProto) : Result (List UInt8) :=
  inOrder [
    encodeOptStr 1 self.name,
    encodeOptStr 2 self.package,
    encodeRepeatedStr 3 self.dependency,
    encodeRepeatedI32 10 self.publicDependency,
    encodeRepeatedI32 11 self.weakDependency,
    encodeRepeated DescriptorProto.encode 4 self.messageType,
    encodeRepeated EnumDescriptorProto.encode 5 self.enumType,
    encodeRepeated ServiceDescriptorProto.encode 6 self.service,
    encodeRepeated FieldDescriptorProto.encode 7 self.extension,
    encodeOptBytes 8 self.options,
    encodeOpt (fun field sci => writeMessage field (SourceCodeInfo.encode sci)) 9 self.sourceCodeInfo,
    encodeOptStr 12 self.syntaxName]

def FileDescriptorSet.encode (self : FileDescriptorSet) : Result (List UInt8) :=
  encodeRepeated FileDescriptorProto.encode 1 self.file

theorem DescriptorProto.encodeAll_eq (ms : List DescriptorProto) :
    encodeAll ms = encodeRepeated DescriptorProto.encode 3 ms := by
  induction ms with
  | nil => rw [encodeAll, encodeRepeated, writeEach]
  | cons m rest ih => rw [encodeAll, ih, encodeRepeated, writeEach]

theorem DescriptorProto.encode_eq (self : DescriptorProto) :
    self.encode = inOrder [
      encodeOptStr 1 self.name,
      encodeRepeated FieldDescriptorProto.encode 2 self.field,
      encodeRepeated FieldDescriptorProto.encode 6 self.extension,
      encodeRepeated DescriptorProto.encode 3 self.nestedType,
      encodeRepeated EnumDescriptorProto.encode 4 self.enumType,
      encodeRepeated ExtensionRange.encode 5 self.extensionRange,
      encodeRepeated OneofDescriptorProto.encode 8 self.oneofDecl,
      encodeOptBytes 7 self.options,
      encodeRepeated ReservedRange.encode 9 self.reservedRange,
      encodeRepeatedStr 10 self.reservedName] := by
  cases self
  rw [DescriptorProto.encode, DescriptorProto.encodeAll_eq]

end TptProto.Descriptor
