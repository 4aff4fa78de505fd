import TptProto.Foundation.Base64
import TptProto.Foundation.Decimal
import TptProto.Foundation.Ieee
import TptProto.Foundation.Outcome
import TptProto.Foundation.SortedMap
import TptProto.Reflect.Codec

/-! JSON values, the options and errors of their conversion, and what it takes from libraries. -/

namespace TptProto.Json

open TptProto.Foundation TptProto.Core TptProto.Reflect

/-- A JSON number: an integer of 64 bits where it is one, else a finite double. -/
inductive Number where
  | posInt (value : UInt64)
  | negInt (value : Int64) (negative : value < 0)
  | float (bits : UInt64) (finite : Ieee.Finite bits)
  deriving DecidableEq

namespace Number

/-- `From<i64>`, and that of the narrower types. -/
def fromI64 (value : Int64) : Number :=
  if negative : value < 0 then .negInt value negative else .posInt value.toUInt64

/-- `Number::from_f64`, which has no number for infinities and NaNs. -/
def fromF64 (bits : UInt64) : Option Number :=
  if finite : Ieee.Finite bits then some (.float bits finite) else none

def asI64 : Number → Option Int64
  | .posInt value => if value.toNat < 2 ^ 63 then some value.toInt64 else none
  | .negInt value _ => some value
  | .float _ _ => none

def asU64 : Number → Option UInt64
  | .posInt value => some value
  | .negInt _ _ | .float _ _ => none

/-- `as_f64`, which never fails. -/
def asF64 : Number → UInt64
  | .posInt value => Ieee.ofNat value.toNat
  | .negInt value _ => Ieee.ofInt value.toInt
  | .float bits _ => bits

end Number

/-- An object is a tree map, kept as its entries in the order of their keys. -/
inductive Json where
  | null
  | bool (value : Bool)
  | number (value : Number)
  | string (value : String)
  | array (items : List Json)
  | object (entries : List (String × Json))

inductive JsonError where
  | unknownField (name : String)
  | typeMismatch (field text : String)
  | invalidNumber (field text : String)
  | unknownEnum (name field : String)
  | wellKnown (text : String)
  | unresolvedType (name : String)
  | recursionLimit (text : String)
  deriving DecidableEq, Repr

abbrev JsonResult := Outcome JsonError

structure JsonOptions where
  useLowerCamelCase : Bool := true
  useProtoFieldNames : Bool := false
  enumAsInts : Bool := false
  alwaysPrintPrimitiveFields : Bool := false
  int64AsString : Bool := true
  bytesAsBase64 : Bool := true
  ignoreUnknownFields : Bool := false
  maxDepth : Nat := 100
  deriving DecidableEq, Repr

/-- One alphabet of base64, with padding. -/
structure Base64Engine where
  encode : List UInt8 → String
  decode : String → Option (List UInt8)

/-- The functions of other libraries. `calendar` writes the second with a number since 1970 in
UTC, without fraction and zone, if it lies in a year that dates can have. `parseRfc3339` gives
seconds since 1970 and nanoseconds. -/
structure Libraries where
  standard : Base64Engine
  urlSafe : Base64Engine
  calendar : Int64 → Option String
  parseRfc3339 : String → Except String (Int64 × UInt32)

/-- Libraries for closed instances: base64 in full, and one point in time. -/
def sampleLibraries : Libraries where
  standard := ⟨Base64.encode false, Base64.decode false⟩
  urlSafe := ⟨Base64.encode true, Base64.decode true⟩
  calendar secs := if secs = 0 then some "1970-01-01T00:00:00" else none
  parseRfc3339 s :=
    if s = "1970-01-01T00:00:00Z" then .ok (0, 0) else .error "input contains invalid characters"

/-- What `Display` writes for an error of the wire format. -/
def wireErrorText : Error → String
  | .unexpectedEof => "unexpected end of input buffer"
  | .varintTooLong => "varint is longer than 10 bytes"
  | .invalidTag tag => s!"invalid field tag: {tag}"
  | .lengthLimitExceeded len => s!"length-delimited field length {len} exceeds remaining input"
  | .utf8Error offset => s!"string field contained invalid UTF-8 at byte {offset}"
  | .integerOverflow => "integer value did not fit in the target type"
  | .unterminatedGroup field => s!"unterminated group for field {field}"
  | .depthLimitExceeded => "maximum nesting depth exceeded"
  | .limitExceeded which => s!"decode limit exceeded: {which}"
  | .unexpectedWireType found => s!"unexpected wire type {found}"
  | .malformedInput what => s!"malformed input: {what}"
  | .custom message => message

def reflectErrorText : ReflectError → String
  | .wire error => s!"wire error: {wireErrorText error}"
  | .unknownField number => s!"unknown field number {number}"
  | .unresolvedType typeName => s!"unresolved type '{typeName}'"
  | .typeMismatch what => s!"type mismatch: {what}"

end TptProto.Json
