

/-! Source spans and diagnostics. -/

namespace TptProto.Language

structure Position where
  line : Nat := 0
  column : Nat := 0
  offset : Nat := 0
  deriving DecidableEq, Repr

structure Span where
  start : Position := {}
  stop : Position := {}
  deriving DecidableEq, Repr

inductive Severity where
  | warning
  | error
  deriving DecidableEq, Repr

inductive ErrorCode where
  | unexpectedToken
  | unexpectedEof
  | invalidSyntax
  | duplicateSymbol
  | invalidFieldNumber
  | reservedConflict
  | unknownType
  | invalidOption
  | invalidFeature
  | other
  deriving DecidableEq, Repr

structure Diagnostic where
  severity : Severity
  code : ErrorCode
  message : String
  span : Option Span
  suggestion : Option String := none
  deriving DecidableEq, Repr

def Diagnostic.error (code : ErrorCode) (message : String) (span : Option Span) : Diagnostic where
  severity := .error
  code
  message
  span

def Diagnostic.warning (code : ErrorCode) (message : String) (span : Option Span) : Diagnostic where
  severity := .warning
  code
  message
  span

abbrev Diagnostics := List Diagnostic

def hasErrors (diags : Diagnostics) : Bool := diags.any fun d => d.severity = .error

theorem hasErrors_append (first second : Diagnostics) :
    hasErrors (first ++ second) = (hasErrors first || hasErrors second) := List.any_append

end TptProto.Language

/-! The tokens the parser reads. Float literals are bit patterns of doubles. -/

namespace TptProto.Language

inductive TokenKind where
  | ident (name : String)
  | int (value : Int64)
  | float (bits : UInt64)
  | str (value : String)
  | lBrace
  | rBrace
  | lParen
  | rParen
  | lBracket
  | rBracket
  | lt
  | gt
  | comma
  | semicolon
  | dot
  | equals
  | colon
  deriving DecidableEq, Repr

structure Token where
  kind : TokenKind
  span : Span := {}
  deriving DecidableEq, Repr

/-- How strings and floats are shown with `{:?}`. -/
structure DebugText where
  string : String → String
  float : UInt64 → String

namespace DebugText

variable (text : DebugText)

/-- A token's kind with `{:?}`. -/
def kind : TokenKind → String
  | .ident name => "Ident(" ++ text.string name ++ ")"
  | .int value => "Int(" ++ toString value.toInt ++ ")"
  | .float bits => "Float(" ++ text.float bits ++ ")"
  | .str value => "Str(" ++ text.string value ++ ")"
  | .lBrace => "LBrace"
  | .rBrace => "RBrace"
  | .lParen => "LParen"
  | .rParen => "RParen"
  | .lBracket => "LBracket"
  | .rBracket => "RBracket"
  | .lt => "Lt"
  | .gt => "Gt"
  | .comma => "Comma"
  | .semicolon => "Semicolon"
  | .dot => "Dot"
  | .equals => "Equals"
  | .colon => "Colon"

/-- An absent or present kind with `{:?}`. -/
def found : Option TokenKind → String
  | some k => "Some(" ++ text.kind k ++ ")"
  | none => "None"

end DebugText

end TptProto.Language

/-! The syntax tree of a parsed file. Numbers are the parser's 64-bit integers and
float literals are bit patterns of doubles. -/

namespace TptProto.Language

structure Ident where
  name : String
  span : Span := {}
  deriving DecidableEq, Repr

structure Syntax where
  span : Span
  value : String
  deriving DecidableEq, Repr

inductive ImportKind where
  | default
  | «public»
  | weak
  deriving DecidableEq, Repr

structure Import where
  span : Span
  path : String
  kind : ImportKind
  deriving DecidableEq, Repr

inductive Constant where
  | int (value : Int64)
  | float (bits : UInt64)
  | string (value : String)
  | bool (value : Bool)
  | ident (name : String)
  | aggregate (fields : List (String × Constant))
  | list (items : List Constant)

structure ProtoOption where
  span : Span
  name : String
  value : Constant

inductive ScalarType where
  | double
  | float
  | int32
  | int64
  | uint32
  | uint64
  | sint32
  | sint64
  | fixed32
  | fixed64
  | sfixed32
  | sfixed64
  | bool
  | string
  | bytes
  deriving DecidableEq, Repr

def ScalarType.fromKeyword (s : String) : Option ScalarType :=
  match s with
  | "double" => some .double
  | "float" => some .float
  | "int32" => some .int32
  | "int64" => some .int64
  | "uint32" => some .uint32
  | "uint64" => some .uint64
  | "sint32" => some .sint32
  | "sint64" => some .sint64
  | "fixed32" => some .fixed32
  | "fixed64" => some .fixed64
  | "sfixed32" => some .sfixed32
  | "sfixed64" => some .sfixed64
  | "bool" => some .bool
  | "string" => some .string
  | "bytes" => some .bytes
  | _ => none

inductive TypeRef where
  | scalar (type : ScalarType)
  | named (ident : Ident)
  deriving DecidableEq, Repr

inductive Label where
  | optional
  | required
  | repeated
  | singular
  deriving DecidableEq, Repr

/-- `[start, stop]`; a single number has no `stop`. -/
structure IntRange where
  start : Int64
  stop : Option Int64
  deriving DecidableEq, Repr

structure Field where
  span : Span
  name : Ident
  number : Int64
  ty : TypeRef
  label : Label
  jsonName : Option String
  default : Option Constant
  options : List ProtoOption

structure Oneof where
  span : Span
  name : Ident
  fields : List Field
  options : List ProtoOption

structure MapField where
  span : Span
  name : Ident
  number : Int64
  key : TypeRef
  value : TypeRef
  options : List ProtoOption

structure EnumValue where
  span : Span
  name : Ident
  number : Int64
  options : List ProtoOption

structure Enum where
  span : Span
  name : Ident
  values : List EnumValue
  reservedRanges : List IntRange
  reservedNames : List Ident
  options : List ProtoOption
  allowAlias : Bool

structure Extension where
  span : Span
  extendee : Ident
  fields : List Field
  options : List ProtoOption

structure Message where
  span : Span
  name : Ident
  fields : List Field
  oneofs : List Oneof
  maps : List MapField
  nestedMessages : List Message
  nestedEnums : List Enum
  nestedExtends : List Extension
  reservedRanges : List IntRange
  reservedNames : List Ident
  extensionRanges : List IntRange
  options : List ProtoOption
  isGroup : Bool

structure Method where
  span : Span
  name : Ident
  input : TypeRef
  output : TypeRef
  clientStreaming : Bool
  serverStreaming : Bool
  options : List ProtoOption

structure Service where
  span : Span
  name : Ident
  methods : List Method
  options : List ProtoOption

structure File where
  name : String
  syntaxDecl : Option Syntax := none
  edition : Option String := none
  package : Option Ident := none
  imports : List Import := []
  options : List ProtoOption := []
  messages : List Message := []
  enums : List Enum := []
  services : List Service := []
  extensions : List Extension := []

end TptProto.Language
