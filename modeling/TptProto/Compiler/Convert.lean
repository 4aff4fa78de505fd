import TptProto.Core.Bytes
import TptProto.Core.Varint
import TptProto.Core.Reader
import TptProto.Core.WireType
import TptProto.Descriptor.Types
import TptProto.Language.Ast

/-! One file's syntax tree to its descriptor. Diagnostics are returned in the order the
source pushes them. Identifiers are ASCII, as the lexer makes them. -/

namespace TptProto.Compiler

open TptProto.Core TptProto.Descriptor TptProto.Language

/-- Convert items in order, with their diagnostics. -/
def each {α β : Type} (convert : α → β × Diagnostics) (items : List α) : List β × Diagnostics :=
  (items.map fun item => (convert item).1, items.flatMap fun item => (convert item).2)

mutual

def enumNamesInMessage : Message → List String
  | ⟨_, _, _, _, _, nestedMessages, nestedEnums, _, _, _, _, _, _⟩ =>
    nestedEnums.map (fun e => e.name.name) ++ enumNamesInMessages nestedMessages

def enumNamesInMessages : List Message → List String
  | [] => []
  | m :: rest => enumNamesInMessage m ++ enumNamesInMessages rest

end

/-- The simple names of every enum of the file. -/
def collectEnumNames (file : File) : List String :=
  file.enums.map (fun e => e.name.name) ++ enumNamesInMessages file.messages

mutual

def messageNamesInMessage : Message → List String
  | ⟨_, _, _, _, _, nestedMessages, _, _, _, _, _, _, _⟩ => messageNamesOf nestedMessages

/-- The names of messages, each followed by those of the messages in it. -/
def messageNamesOf : List Message → List String
  | [] => []
  | m :: rest => m.name.name :: (messageNamesInMessage m ++ messageNamesOf rest)

end

def collectMessageNames (file : File) : List String := messageNamesOf file.messages

def checkFieldNumber (number : Int64) (span : Span) : Diagnostics :=
  (if 1 ≤ number.toInt ∧ number.toInt ≤ 536870911 then [] else
    [.error .invalidFieldNumber
      ("field number " ++ toString number.toInt ++ " is out of range (must be 1..=536870911)")
      (some span)]) ++
  (if 19000 ≤ number.toInt ∧ number.toInt ≤ 19999 then
    [.warning .invalidFieldNumber
      ("field number " ++ toString number.toInt ++
        " is in the reserved implementation range 19000..=19999") (some span)]
  else [])

/-- The part after the last dot of a name. -/
def simpleName (name : String) : String :=
  String.ofList (((name.toList.dropWhile (· = '.')).reverse.takeWhile (· ≠ '.')).reverse)

def scalarToFieldType : Language.ScalarType → FieldType
  | .double => .double
  | .float => .float
  | .int64 => .int64
  | .uint64 => .uint64
  | .int32 => .int32
  | .fixed64 => .fixed64
  | .fixed32 => .fixed32
  | .bool => .bool
  | .string => .string
  | .bytes => .bytes
  | .uint32 => .uint32
  | .sfixed32 => .sfixed32
  | .sfixed64 => .sfixed64
  | .sint32 => .sint32
  | .sint64 => .sint64

/-- `resolve_type`. A name that no message of the file has is taken for a message too. -/
def resolveType (ty : TypeRef) (enumNames msgNames : List String) : FieldType × Option String :=
  match ty with
  | .scalar s => (scalarToFieldType s, none)
  | .named ident =>
    (if enumNames.contains (simpleName ident.name) then .enum
      else if msgNames.contains (simpleName ident.name) then .message
      else .message,
      some ident.name)

def convertLabel : Language.Label → Descriptor.Label
  | .optional => .optional
  | .required => .required
  | .repeated => .repeated
  | .singular => .optional

/-- The loop of `to_json_name` after the first character; the flag is `upper`. -/
def jsonNameTail : Bool → List Char → List Char
  | _, [] => []
  | upper, c :: rest =>
    if c = '_' then jsonNameTail true rest
    else if upper then c.toUpper :: jsonNameTail false rest
    else c :: jsonNameTail false rest

/-- `to_json_name`. -/
def toJsonName (field : String) : String :=
  String.ofList (match field.toList with
    | [] => []
    | c :: rest => if c = '_' then jsonNameTail true rest else c.toLower :: jsonNameTail false rest)

/-- Serialized message options with `map_entry` set. -/
def makeMapEntryOptions : List UInt8 :=
  Tag.encode ⟨7, .varint, Tag.nonzero_seven⟩ ++ encodeVarint (boolWord true)

/-- What one file's conversion has computed before its fields: how floats are displayed,
the simple names of its enums and messages, and its syntax. -/
structure FileContext where
  displayFloat : UInt64 → String
  enumNames : List String
  msgNames : List String
  syntaxName : String

namespace FileContext

variable (cx : FileContext)

def constantToText : Constant → String
  | .int i => toString i.toInt
  | .float bits => cx.displayFloat bits
  | .string s => s
  | .bool b => toString b
  | .ident s => s
  | .aggregate _ => ""
  | .list _ => ""

def resolveType (ty : TypeRef) : FieldType × Option String :=
  Compiler.resolveType ty cx.enumNames cx.msgNames

def convertField (f : Field) : FieldDescriptorProto × Diagnostics :=
  ({ name := some f.name.name
     number := some f.number.toInt32
     label := some (convertLabel f.label)
     type := some (cx.resolveType f.ty).1
     typeName := (cx.resolveType f.ty).2
     defaultValue := f.default.map cx.constantToText
     jsonName := f.jsonName.or (some (toJsonName f.name.name))
     proto3Optional := if f.label = .optional ∧ cx.syntaxName = "proto3" then some true else none },
    checkFieldNumber f.number f.span)

/-- A oneof's field, which keeps neither its label nor `proto3_optional`. -/
def convertMember (index : Nat) (f : Field) : FieldDescriptorProto × Diagnostics :=
  ({ (cx.convertField f).1 with
      oneofIndex := some (Int32.ofNat index)
      label := some .optional
      proto3Optional := none },
    (cx.convertField f).2)

def convertOneofs : Nat → List Oneof → List FieldDescriptorProto × Diagnostics
  | _, [] => ([], [])
  | index, o :: rest =>
    ((each (cx.convertMember index) o.fields).1 ++ (convertOneofs (index + 1) rest).1,
      (each (cx.convertMember index) o.fields).2 ++ (convertOneofs (index + 1) rest).2)

def entryName (mf : MapField) : String := mf.name.name ++ "Entry"

/-- The synthetic message a map field expands to. -/
def convertEntry (mf : MapField) : DescriptorProto where
  name := some (entryName mf)
  field := [
    { name := some "key"
      number := some 1
      label := some .optional
      type := some (cx.resolveType mf.key).1
      typeName := (cx.resolveType mf.key).2 },
    { name := some "value"
      number := some 2
      label := some .optional
      type := some (cx.resolveType mf.value).1
      typeName := (cx.resolveType mf.value).2 }]
  options := some makeMapEntryOptions

def convertMapField (selfPath : String) (mf : MapField) : FieldDescriptorProto × Diagnostics :=
  ({ name := some mf.name.name
     number := some mf.number.toInt32
     label := some .repeated
     type := some .message
     typeName := some ("." ++ selfPath ++ "." ++ entryName mf) },
    checkFieldNumber mf.number mf.span)

end FileContext

/-- The values that reuse a number, while aliases are not allowed. -/
def aliasWarnings (allowAlias : Bool) : List Int64 → List EnumValue → Diagnostics
  | _, [] => []
  | seen, v :: rest =>
    if allowAlias then aliasWarnings allowAlias seen rest
    else if seen.contains v.number then
      .warning .other
        ("enum value " ++ v.name.name ++ " reuses number " ++ toString v.number.toInt ++
          " without allow_alias") (some v.span) :: aliasWarnings allowAlias seen rest
    else aliasWarnings allowAlias (v.number :: seen) rest

/-- The bounds of a written range as the descriptor stores them. -/
def convertRange (r : IntRange) : Int32 × Int32 :=
  (r.start.toInt32, (r.stop.getD r.start).toInt32)

def convertReserved (r : IntRange) : ReservedRange :=
  ⟨(convertRange r).1, (convertRange r).2⟩

def convertExtensionRange (r : IntRange) : ExtensionRange :=
  ⟨(convertRange r).1, (convertRange r).2⟩

def convertEnum (e : Enum) : EnumDescriptorProto × Diagnostics :=
  ({ name := some e.name.name
     value := e.values.map fun v =>
      { name := some v.name.name, number := some v.number.toInt32 }
     reservedRange := e.reservedRanges.map convertReserved
     reservedName := e.reservedNames.map fun n => n.name },
    aliasWarnings e.allowAlias [] e.values)

namespace FileContext

variable (cx : FileContext)

/-- The path of a message without a leading dot. -/
def selfPath (pathPrefix : String) (name : String) : String :=
  if pathPrefix.isEmpty then name else pathPrefix ++ "." ++ name

mutual

def convertMessage (pathPrefix : String) : Message → DescriptorProto × Diagnostics
  | ⟨_, name, fields, oneofs, maps, nestedMessages, nestedEnums, nestedExtends, reservedRanges,
      reservedNames, extensionRanges, _, _⟩ =>
    let path := selfPath pathPrefix name.name
    let members := cx.convertOneofs 0 oneofs
    let plain := each cx.convertField fields
    let mapped := each (convertMapField path) maps
    let nested := convertMessages path nestedMessages
    let enums := each convertEnum nestedEnums
    let extensions := each cx.convertField (nestedExtends.flatMap fun ext => ext.fields)
    ({ name := some name.name
       field := members.1 ++ plain.1 ++ mapped.1
       extension := extensions.1
       nestedType := maps.map cx.convertEntry ++ nested.1
       enumType := enums.1
       extensionRange := extensionRanges.map convertExtensionRange
       oneofDecl := oneofs.map fun o => { name := some o.name.name }
       reservedRange := reservedRanges.map convertReserved
       reservedName := reservedNames.map fun n => n.name },
      members.2 ++ plain.2 ++ mapped.2 ++ nested.2 ++ enums.2 ++ extensions.2)

def convertMessages (pathPrefix : String) : List Message → List DescriptorProto × Diagnostics
  | [] => ([], [])
  | m :: rest =>
    let first := convertMessage pathPrefix m
    let others := convertMessages pathPrefix rest
    (first.1 :: others.1, first.2 ++ others.2)

end

end FileContext

def typeRefName : TypeRef → Option String
  | .named i => some i.name
  | .scalar _ => none

def convertService (s : Service) : ServiceDescriptorProto where
  name := some s.name.name
  method := s.methods.map fun m =>
    { name := some m.name.name
      inputType := typeRefName m.input
      outputType := typeRefName m.output
      clientStreaming := some m.clientStreaming
      serverStreaming := some m.serverStreaming }

/-- One diagnostic for each name that an earlier item or the given set already has. -/
def repeated : List String → List (String × Diagnostic) → Diagnostics
  | _, [] => []
  | seen, (name, diagnostic) :: rest =>
    if seen.contains name then diagnostic :: repeated seen rest else repeated (name :: seen) rest

private def duplicateField (m : String) (f : Field) : String × Diagnostic :=
  (f.name.name, .error .duplicateSymbol
    ("duplicate field '" ++ f.name.name ++ "' in message '" ++ m ++ "'") (some f.span))

mutual

def checkMessageDuplicates : Message → Diagnostics
  | ⟨_, name, fields, oneofs, _, nestedMessages, _, _, _, _, _, _, _⟩ =>
    repeated [] ((fields ++ oneofs.flatMap fun o => o.fields).map (duplicateField name.name)) ++
      checkMessagesDuplicates nestedMessages

def checkMessagesDuplicates : List Message → Diagnostics
  | [] => []
  | m :: rest => checkMessageDuplicates m ++ checkMessagesDuplicates rest

end

def checkDuplicates (file : File) : Diagnostics :=
  repeated []
    ((file.messages.map fun m => (m.name.name, Diagnostic.error .duplicateSymbol
        ("duplicate top-level message '" ++ m.name.name ++ "'") (some m.span))) ++
      file.enums.map fun e => (e.name.name, Diagnostic.error .duplicateSymbol
        ("duplicate top-level symbol '" ++ e.name.name ++ "'") (some e.span))) ++
    checkMessagesDuplicates file.messages

/-- The syntax a descriptor records: editions, the keyword, or proto2. -/
def descriptorSyntax (file : File) : String :=
  if file.edition.isSome then "editions"
  else (file.syntaxDecl.map fun s => s.value).getD "proto2"

/-- The positions of the imports of a kind. -/
def importsOf (kind : ImportKind) : Nat → List Import → List Int32
  | _, [] => []
  | index, imp :: rest =>
    if imp.kind = kind then Int32.ofNat index :: importsOf kind (index + 1) rest
    else importsOf kind (index + 1) rest

def packageName (file : File) : String := (file.package.map fun p => p.name).getD ""

def fileContext (displayFloat : UInt64 → String) (file : File) : FileContext where
  displayFloat
  enumNames := collectEnumNames file
  msgNames := collectMessageNames file
  syntaxName := descriptorSyntax file

/-- `compile`: a file's descriptor and the diagnostics of its conversion. -/
def compile (displayFloat : UInt64 → String) (file : File) : FileDescriptorProto × Diagnostics :=
  let cx := fileContext displayFloat file
  let extensions := each cx.convertField (file.extensions.flatMap fun ext => ext.fields)
  let messages := cx.convertMessages (packageName file) file.messages
  let enums := each convertEnum file.enums
  ({ name := some file.name
     package := file.package.map fun p => p.name
     dependency := file.imports.map fun imp => imp.path
     publicDependency := importsOf .«public» 0 file.imports
     weakDependency := importsOf .weak 0 file.imports
     messageType := messages.1
     enumType := enums.1
     service := file.services.map convertService
     extension := extensions.1
     syntaxName := some (descriptorSyntax file) },
    checkDuplicates file ++ extensions.2 ++ messages.2 ++ enums.2)

end TptProto.Compiler
