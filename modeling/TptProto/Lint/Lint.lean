import TptProto.Descriptor.Types
import TptProto.Foundation.Evolution

/-! How the lint reads number ranges. -/

namespace TptProto.Lint

/-- The inclusive range contains the number; a stop of 0 is that of a single number. -/
def rangeCovers (start stop num : Int32) : Bool :=
  if num < start then false
  else if stop = 0 then start = num
  else num ≤ stop

end TptProto.Lint

/-! The comparison of two versions of a file: its findings, pass by pass. -/

namespace TptProto.Lint

open TptProto.Foundation TptProto.Descriptor

inductive Severity where
  | safe
  | warning
  | breaking
  deriving DecidableEq, Repr

structure Finding where
  severity : Severity
  code : String
  message : String
  deriving DecidableEq, Repr

abbrev Report := List Finding

def Report.hasBreaking (r : Report) : Bool := r.any fun f => f.severity = .breaking

section Debug

def debugType : FieldType → String
  | .double => "Double"
  | .float => "Float"
  | .int64 => "Int64"
  | .uint64 => "Uint64"
  | .int32 => "Int32"
  | .fixed64 => "Fixed64"
  | .fixed32 => "Fixed32"
  | .bool => "Bool"
  | .string => "String"
  | .group => "Group"
  | .message => "Message"
  | .bytes => "Bytes"
  | .uint32 => "Uint32"
  | .enum => "Enum"
  | .sfixed32 => "Sfixed32"
  | .sfixed64 => "Sfixed64"
  | .sint32 => "Sint32"
  | .sint64 => "Sint64"

def debugLabel : Label → String
  | .optional => "Optional"
  | .required => "Required"
  | .repeated => "Repeated"

/-- A type's name in quotes; it has no character that would be escaped. -/
def debugName (name : String) : String := "\"" ++ name ++ "\""

def debugOption {α : Type} (debug : α → String) : Option α → String
  | none => "None"
  | some a => "Some(" ++ debug a ++ ")"

end Debug

def lintPackage (old new : FileDescriptorProto) : Report :=
  let a := old.package.getD ""
  let b := new.package.getD ""
  if a ≠ b then
    [⟨.breaking, "PACKAGE_CHANGED", "package changed from `" ++ a ++ "` to `" ++ b ++ "`"⟩]
  else []

section Fields

/-- The start of a finding about a field. -/
def aboutField (msg name : String) : String := "message `" ++ msg ++ "`: field `" ++ name ++ "`"

def jsonNameFindings (msg name : String) : Option String → Option String → Report
  | some a, some b =>
    if a ≠ b then
      [⟨.breaking, "JSON_NAME_CHANGED",
        aboutField msg name ++ " json_name changed from `" ++ a ++ "` to `" ++ b ++ "`"⟩]
    else []
  | some a, none =>
    [⟨.warning, "JSON_NAME_CHANGED", aboutField msg name ++ " explicit json_name `" ++ a ++
      "` removed; JSON key now derived from the field name"⟩]
  | none, _ => []

def checkFieldCompat (msg : String) (old new : FieldDescriptorProto) : Report :=
  let name := new.name.getD ""
  let changed (what was now : String) : String :=
    aboutField msg name ++ " " ++ what ++ " changed from " ++ was ++ " to " ++ now
  (if old.type ≠ new.type then
    [⟨.breaking, "FIELD_TYPE_CHANGED",
      changed "type" (debugOption debugType old.type) (debugOption debugType new.type)⟩] else []) ++
  (if old.label ≠ new.label then
    [⟨.breaking, "FIELD_LABEL_CHANGED",
      changed "label" (debugOption debugLabel old.label) (debugOption debugLabel new.label)⟩] else []) ++
  (if old.typeName ≠ new.typeName then
    [⟨.breaking, "FIELD_TYPE_NAME_CHANGED",
      changed "type name" (debugOption debugName old.typeName)
        (debugOption debugName new.typeName)⟩] else []) ++
  jsonNameFindings msg name old.jsonName new.jsonName ++
  (if old.defaultValue ≠ new.defaultValue then
    [⟨.warning, "DEFAULT_VALUE_CHANGED",
      changed "default" (old.defaultValue.getD "(unset)") (new.defaultValue.getD "(unset)")⟩] else [])

def fieldNumber (f : FieldDescriptorProto) : Int32 := f.number.getD 0

/-- The field a map by number holds: of several with one number, the last. -/
def oldByNum (old : DescriptorProto) (num : Int32) : Option FieldDescriptorProto :=
  old.field.reverse.find? fun f => fieldNumber f = num

def lintNewField (old : DescriptorProto) (msg : String) (nf : FieldDescriptorProto) : Report :=
  let num := fieldNumber nf
  let nname := nf.name.getD ""
  match oldByNum old num with
  | none =>
    [⟨.warning, "FIELD_ADDED", aboutField msg nname ++ " (#" ++ toString num ++ ") added"⟩]
  | some of =>
    let oname := of.name.getD ""
    if oname ≠ nname then
      [⟨.breaking, "FIELD_NUMBER_REUSED", "message `" ++ msg ++ "`: field number #" ++ toString num ++
        " reused (was `" ++ oname ++ "`, now `" ++ nname ++ "`)"⟩]
    else checkFieldCompat msg of nf

/-- The new message reserves the number. -/
def reservesNumber (new : DescriptorProto) (num : Int32) : Bool :=
  new.reservedRange.any fun rr =>
    rr.start ≤ num && (rr.stop = 0 && rr.start = num || num ≤ rr.stop)

def reservesName (new : DescriptorProto) (name : String) : Bool :=
  new.reservedName.any fun n => n = name

def hasNumber (new : DescriptorProto) (num : Int32) : Bool :=
  new.field.any fun f => f.number = some num

def lintOldField (new : DescriptorProto) (msg : String) (of : FieldDescriptorProto) : Report :=
  let num := fieldNumber of
  let removed := aboutField msg (of.name.getD "") ++ " (#" ++ toString num ++ ") removed "
  if hasNumber new num then []
  else if reservesNumber new num || reservesName new (of.name.getD "") then
    [⟨.safe, "FIELD_RESERVED", removed ++ "but declared reserved"⟩]
  else [⟨.breaking, "FIELD_REMOVED", removed ++ "without reservation"⟩]

def lintMessageFields (old new : DescriptorProto) (msg : String) : Report :=
  new.field.flatMap (lintNewField old msg) ++ old.field.flatMap (lintOldField new msg)

end Fields

section Ranges

def rangeCoversRange (startA stopA startB stopB : Int32) : Bool :=
  rangeCovers startA stopA startB &&
    rangeCovers startA stopA (if stopB = 0 then startB else stopB)

/-- A range in a finding. -/
def showRange (start stop : Int32) : String :=
  toString start ++ ".." ++ toString (if stop = 0 then start else stop)

def checkReservedAndExtensions (msg : String) (old new : DescriptorProto) : Report :=
  old.reservedRange.flatMap (fun orr =>
    if new.reservedRange.any fun nrr => rangeCoversRange nrr.start nrr.stop orr.start orr.stop then []
    else [⟨.breaking, "RESERVED_RANGE_SHRUNK", "message `" ++ msg ++ "`: reserved range " ++
      showRange orr.start orr.stop ++
      " narrowed or removed; previously reserved numbers may now be reused"⟩]) ++
  old.reservedName.flatMap (fun name =>
    if new.reservedName.contains name then []
    else [⟨.breaking, "RESERVED_NAME_REMOVED", "message `" ++ msg ++ "`: reserved name `" ++ name ++
      "` removed; the name may now be reused"⟩]) ++
  old.extensionRange.flatMap (fun oer =>
    if new.extensionRange.any fun ner => rangeCoversRange ner.start ner.stop oer.start oer.stop then []
    else [⟨.warning, "EXTENSION_RANGE_REMOVED", "message `" ++ msg ++ "`: extension range " ++
      showRange oer.start oer.stop ++ " removed or narrowed"⟩])

end Ranges

section Enums

def lintEnumValues (name : String) (oe ne : EnumDescriptorProto) : Report :=
  let about (v : EnumValueDescriptorProto) (what : String) : String :=
    "enum `" ++ name ++ "`: value `" ++ v.name.getD "" ++ "` (#" ++ toString (v.number.getD 0) ++
      ") " ++ what
  oe.value.flatMap (fun ov =>
    if ne.value.any fun v => v.number = ov.number then []
    else [⟨.breaking, "ENUM_VALUE_REMOVED", about ov "removed"⟩]) ++
  ne.value.flatMap (fun nv =>
    if oe.value.any fun v => v.number = nv.number then []
    else [⟨.warning, "ENUM_VALUE_ADDED", about nv "added"⟩])

def lintEnums (old new : List EnumDescriptorProto) (pathPrefix : String) : Report :=
  new.flatMap (fun ne =>
    let name := pathPrefix ++ ne.name.getD ""
    match counterpart (fun e => e.name) old ne with
    | none => [⟨.safe, "ENUM_ADDED", "enum `" ++ name ++ "` added"⟩]
    | some oe => lintEnumValues name oe ne) ++
  old.flatMap (fun oe =>
    if new.any fun e => e.name = oe.name then []
    else [⟨.breaking, "ENUM_REMOVED", "enum `" ++ pathPrefix ++ oe.name.getD "" ++ "` removed"⟩])

end Enums

section Messages

def removedMessages (old new : List DescriptorProto) (pathPrefix : String) : Report :=
  old.flatMap fun om =>
    if new.any fun m => m.name = om.name then []
    else [⟨.breaking, "MESSAGE_REMOVED", "message `" ++ pathPrefix ++ om.name.getD "" ++ "` removed"⟩]

mutual

/-- One message of the new version, with all in it. -/
def lintMessage (old : List DescriptorProto) (pathPrefix : String) : DescriptorProto → Report
  | ⟨name, field, extension, nestedType, enumType, extensionRange, oneofDecl, options,
      reservedRange, reservedName⟩ =>
    let nm : DescriptorProto := ⟨name, field, extension, nestedType, enumType, extensionRange,
      oneofDecl, options, reservedRange, reservedName⟩
    let name := pathPrefix ++ name.getD ""
    match counterpart (fun m => m.name) old nm with
    | none => [⟨.safe, "MESSAGE_ADDED", "message `" ++ name ++ "` added"⟩]
    | some om =>
      lintMessageFields om nm name ++ checkReservedAndExtensions name om nm ++
        (lintNewMessages om.nestedType (name ++ ".") nestedType ++
          removedMessages om.nestedType nestedType (name ++ ".")) ++
        lintEnums om.enumType enumType name

def lintNewMessages (old : List DescriptorProto) (pathPrefix : String) :
    List DescriptorProto → Report
  | [] => []
  | nm :: rest => lintMessage old pathPrefix nm ++ lintNewMessages old pathPrefix rest

end

def lintMessages (old new : List DescriptorProto) (pathPrefix : String) : Report :=
  lintNewMessages old pathPrefix new ++ removedMessages old new pathPrefix

end Messages

section Services

def checkMethodCompat (service : String) (new old : MethodDescriptorProto) : Report :=
  let about := "service `" ++ service ++ "`: method `" ++ new.name.getD "" ++ "`"
  (if old.inputType ≠ new.inputType then
    [⟨.breaking, "METHOD_INPUT_CHANGED", about ++ " input type changed"⟩] else []) ++
  (if old.outputType ≠ new.outputType then
    [⟨.breaking, "METHOD_OUTPUT_CHANGED", about ++ " output type changed"⟩] else []) ++
  (if old.clientStreaming ≠ new.clientStreaming ∨ old.serverStreaming ≠ new.serverStreaming then
    [⟨.breaking, "METHOD_STREAMING_CHANGED", about ++ " streaming mode changed"⟩] else [])

def lintMethods (old new : ServiceDescriptorProto) : Report :=
  let service := new.name.getD ""
  let about (m : MethodDescriptorProto) (what : String) : String :=
    "service `" ++ service ++ "`: method `" ++ m.name.getD "" ++ "` " ++ what
  new.method.flatMap (fun nm =>
    match counterpart (fun m => m.name) old.method nm with
    | none => [⟨.warning, "METHOD_ADDED", about nm "added"⟩]
    | some om => checkMethodCompat service nm om) ++
  old.method.flatMap (fun om =>
    if new.method.any fun m => m.name = om.name then []
    else [⟨.breaking, "METHOD_REMOVED", about om "removed"⟩])

def lintServices (old new : List ServiceDescriptorProto) : Report :=
  new.flatMap (fun ns =>
    match counterpart (fun s => s.name) old ns with
    | none => [⟨.safe, "SERVICE_ADDED", "service `" ++ ns.name.getD "" ++ "` added"⟩]
    | some os => lintMethods os ns) ++
  old.flatMap (fun os =>
    if new.any fun s => s.name = os.name then []
    else [⟨.breaking, "SERVICE_REMOVED", "service `" ++ os.name.getD "" ++ "` removed"⟩])

end Services

/-- The evolution of a file from its old version to its new one. -/
def lint (old new : FileDescriptorProto) : Report :=
  lintPackage old new ++ lintMessages old.messageType new.messageType "" ++
    lintEnums old.enumType new.enumType "" ++ lintServices old.service new.service

end TptProto.Lint
