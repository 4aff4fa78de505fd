import TptProto.Json.Types

/-! Enums, scalars and map keys, to JSON and back. -/

namespace TptProto.Json

open TptProto.Foundation TptProto.Core TptProto.Descriptor TptProto.Reflect

/-- The type a field is converted as. -/
def typeOf (field : FieldDescriptorProto) : FieldType := field.type.getD .string

/-- Neither a message nor an enum. -/
def IsScalar (t : FieldType) : Prop := t ≠ .message ∧ t ≠ .group ∧ t ≠ .enum

instance (t : FieldType) : Decidable (IsScalar t) := inferInstanceAs (Decidable (_ ∧ _))

def fieldJsonName (field : FieldDescriptorProto) (opts : JsonOptions) : String :=
  if opts.useProtoFieldNames then field.name.getD ""
  else if opts.useLowerCamelCase then
    match field.jsonName with
    | some name => if name = "" then field.name.getD "" else name
    | none => field.name.getD ""
  else field.name.getD ""

/-- A repeated message field whose descriptor is flagged as a map entry. -/
def isMapField (pool : DescriptorPool) (field : FieldDescriptorProto) : Bool :=
  field.label = some .repeated && field.type = some .message &&
    ((field.typeName.bind pool.lookupMessage).map isMapEntry).getD false

/-- The key and value fields of the entry type. -/
def mapEntryFields (pool : DescriptorPool) (field : FieldDescriptorProto) :
    Option (FieldDescriptorProto × FieldDescriptorProto) := do
  let entry ← field.typeName.bind pool.lookupMessage
  let key ← entry.findFieldByNumber 1
  let value ← entry.findFieldByNumber 2
  some (key, value)

/-- The first value with a property in the enum that a field names. -/
def enumValue? (pool : DescriptorPool) (field : FieldDescriptorProto)
    (wanted : EnumValueDescriptorProto → Bool) : Option EnumValueDescriptorProto :=
  (pool.lookupEnum (field.typeName.getD "")).bind fun edesc => edesc.value.find? wanted

section Printing

/-- A value is written by the name of the first enum value with its number. -/
def enumToJson (pool : DescriptorPool) (field : FieldDescriptorProto) (n : Int32)
    (opts : JsonOptions) : Json :=
  if opts.enumAsInts then .number (.fromI64 n.toInt64)
  else
    match enumValue? pool field fun v => v.number = some n with
    | some v => .string (v.name.getD (toString n.toInt))
    | none => .number (.fromI64 n.toInt64)

def numberFromI64 (x : Int64) : JsonResult Json :=
  (Outcome.ofOption (.invalidNumber "int" (toString x.toInt))
    (Number.fromF64 (Ieee.ofInt x.toInt))).map .number

def numberFromU64 (x : UInt64) : JsonResult Json :=
  (Outcome.ofOption (.invalidNumber "uint" (toString x.toNat))
    (Number.fromF64 (Ieee.ofNat x.toNat))).map .number

/-- Infinities and NaNs are written as texts. -/
def floatToJson (bits : UInt64) : Json :=
  match Number.fromF64 bits with
  | some n => .number n
  | none =>
    if bits.toNat % 2 ^ 52 ≠ 0 then .string "NaN"
    else .string (if bits.toNat < 2 ^ 63 then "Infinity" else "-Infinity")

def scalarToJson (libs : Libraries) (t : FieldType) (s : ScalarValue) (opts : JsonOptions) :
    JsonResult Json :=
  match t, s with
  | .string, .string x => .ok (.string x)
  | .string, _ => .err (.typeMismatch "string" "not a string")
  | .bytes, .bytes b =>
    .ok (.string (if opts.bytesAsBase64 then libs.standard.encode b else libs.urlSafe.encode b))
  | .bool, .bool b => .ok (.bool b)
  | .double, .f64 x | .float, .f64 x => .ok (floatToJson x)
  | .int32, .i64 x | .int64, .i64 x | .sint32, .i64 x | .sint64, .i64 x | .sfixed32, .i64 x
  | .sfixed64, .i64 x =>
    if opts.int64AsString then .ok (.string (toString x.toInt)) else numberFromI64 x
  | .uint32, .u64 x | .uint64, .u64 x | .fixed32, .u64 x | .fixed64, .u64 x =>
    if opts.int64AsString then .ok (.string (toString x.toNat)) else numberFromU64 x
  | _, _ => .err (.typeMismatch "scalar" "type/value mismatch")

/-- What an unset field is printed as on demand; a message is left out. -/
def defaultJsonValue (pool : DescriptorPool) (field : FieldDescriptorProto) (opts : JsonOptions) :
    Option Json :=
  match typeOf field with
  | .message | .group => none
  | .enum => some (enumToJson pool field 0 opts)
  | .string | .bytes => some (.string "")
  | .bool => some (.bool false)
  | .double | .float => (Number.fromF64 0).map .number
  | _ => some (.number (.posInt 0))

def mapKeyToJson (kf : FieldDescriptorProto) (k : Value) : JsonResult String :=
  match typeOf kf, k with
  | .string, .scalar (.string s) => .ok s
  | .bool, .scalar (.bool b) => .ok (toString b)
  | .int32, .scalar (.i64 x) | .int64, .scalar (.i64 x) | .sint32, .scalar (.i64 x)
  | .sint64, .scalar (.i64 x) | .sfixed32, .scalar (.i64 x) | .sfixed64, .scalar (.i64 x) =>
    .ok (toString x.toInt)
  | .uint32, .scalar (.u64 x) | .uint64, .scalar (.u64 x) | .fixed32, .scalar (.u64 x)
  | .fixed64, .scalar (.u64 x) => .ok (toString x.toNat)
  | _, _ => .err (.typeMismatch "map key" "unsupported key type")

end Printing

section Parsing

/-- A text is tried as the name of a value first, then as a number. -/
def jsonToEnum (pool : DescriptorPool) (field : FieldDescriptorProto) (jv : Json) :
    JsonResult Value :=
  match jv with
  | .number n => .ok (.enum ((n.asI64.getD 0).toInt32))
  | .string s =>
    match enumValue? pool field fun v => v.name = some s with
    | some v => .ok (.enum (v.number.getD 0))
    | none =>
      match Decimal.parseInt (2 ^ 31) s with
      | some n => .ok (.enum (Int32.ofInt n))
      | none => .err (.unknownEnum s (field.name.getD ""))
  | _ => .err (.typeMismatch (field.name.getD "") "expected number or string for enum")

/-- The integer of a number, else its double cast to a signed integer. -/
def Number.toI64 (n : Number) : Int64 :=
  n.asI64.getD (Int64.ofInt (Ieee.truncate64 (-2 ^ 63) (2 ^ 63 - 1) n.asF64))

def Number.toU64 (n : Number) : UInt64 :=
  n.asU64.getD (UInt64.ofNat (Ieee.truncate64 0 (2 ^ 64 - 1) n.asF64).toNat)

def parseI64 (jv : Json) (fname : String) : JsonResult Int64 :=
  match jv with
  | .number n => .ok n.toI64
  | .string s =>
    (Outcome.ofOption (.invalidNumber fname s) (Decimal.parseInt (2 ^ 63) s)).map Int64.ofInt
  | _ => .err (.typeMismatch fname "expected number")

def parseU64 (jv : Json) (fname : String) : JsonResult UInt64 :=
  match jv with
  | .number n => .ok n.toU64
  | .string s =>
    (Outcome.ofOption (.invalidNumber fname s) (Decimal.parseNat (2 ^ 64) s)).map UInt64.ofNat
  | _ => .err (.typeMismatch fname "expected number")

/-- The preferred alphabet, else the other one. -/
def decodeBase64 (libs : Libraries) (opts : JsonOptions) (s : String) : Option (List UInt8) :=
  if opts.bytesAsBase64 then (libs.standard.decode s).or (libs.urlSafe.decode s)
  else (libs.urlSafe.decode s).or (libs.standard.decode s)

/-- `f64::NAN`, `f64::INFINITY` and its negation. -/
def parseFloatText (s : String) : Option UInt64 :=
  if s = "NaN" then some 0x7FF8000000000000
  else if s = "Infinity" then some 0x7FF0000000000000
  else if s = "-Infinity" then some 0xFFF0000000000000
  else none

def jsonToScalar (libs : Libraries) (t : FieldType) (jv : Json) (fname : String)
    (opts : JsonOptions) : JsonResult ScalarValue :=
  match t with
  | .string =>
    match jv with
    | .string s => .ok (.string s)
    | _ => .err (.typeMismatch fname "expected string")
  | .bytes =>
    match jv with
    | .string s =>
      (Outcome.ofOption (.typeMismatch fname "invalid base64") (decodeBase64 libs opts s)).map .bytes
    | _ => .err (.typeMismatch fname "expected string for bytes")
  | .bool =>
    match jv with
    | .bool b => .ok (.bool b)
    | _ => .err (.typeMismatch fname "expected bool")
  | .double | .float =>
    match jv with
    | .number n => .ok (.f64 n.asF64)
    | .string s =>
      (Outcome.ofOption (.typeMismatch fname "invalid float string") (parseFloatText s)).map .f64
    | _ => .err (.typeMismatch fname "expected number")
  | .int32 | .sint32 | .sfixed32 => (parseI64 jv fname).map fun x => .i64 x.toInt32.toInt64
  | .int64 | .sint64 | .sfixed64 => (parseI64 jv fname).map .i64
  | .uint32 | .fixed32 => (parseU64 jv fname).map fun x => .u64 x.toUInt32.toUInt64
  | .uint64 | .fixed64 => (parseU64 jv fname).map .u64
  | _ => .err (.typeMismatch fname "unsupported scalar")

/-- `str::parse::<bool>`. -/
def parseBool (k : String) : Option Bool :=
  if k = "true" then some true else if k = "false" then some false else none

def jsonToMapKey (kf : FieldDescriptorProto) (k : String) : JsonResult Value :=
  match typeOf kf with
  | .string => .ok (.scalar (.string k))
  | .bool =>
    (Outcome.ofOption (.typeMismatch "map key" "not bool") (parseBool k)).map
      fun b => .scalar (.bool b)
  | .int32 | .int64 | .sint32 | .sint64 | .sfixed32 | .sfixed64 =>
    (Outcome.ofOption (.typeMismatch "map key" "not int") (Decimal.parseInt (2 ^ 63) k)).map
      fun x => .scalar (.i64 (Int64.ofInt x))
  | .uint32 | .uint64 | .fixed32 | .fixed64 =>
    (Outcome.ofOption (.typeMismatch "map key" "not uint") (Decimal.parseNat (2 ^ 64) k)).map
      fun x => .scalar (.u64 (UInt64.ofNat x))
  | _ => .err (.typeMismatch "map key" "unsupported key type")

end Parsing

end TptProto.Json
