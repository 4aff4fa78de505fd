import TptProto.Core.Bytes
import TptProto.Foundation.SortedMap

/-! Request and response metadata: validated keys, and values that are base64 text
under `-bin` keys. -/

namespace TptProto.Grpc

open TptProto.Core TptProto.Foundation

/-- The standard base64 decoder. A refused text comes with a description. -/
abbrev Base64 := String → Except String (List UInt8)

/-- An HTTP header block: names with the bytes of their values, in order. -/
abbrev HeaderMap := List (String × List UInt8)

/-- `HeaderValue::to_str`: visible ASCII, spaces and tabs only. -/
def toStr (value : List UInt8) : Option String :=
  if value.all fun b => (32 ≤ b && b < 127) || b = 9 then
    some (String.ofList (value.map fun b => Char.ofNat b.toNat))
  else none

/-- `HeaderValue::from_str`, for the texts that `to_str` gives back. -/
def fromStr (text : String) : Option (List UInt8) :=
  if (asBytes text).all fun b => (32 ≤ b && b < 127) || b = 9 then some (asBytes text) else none

/-- `HeaderMap::get`: the first value of a name. -/
def HeaderMap.get (headers : HeaderMap) (name : String) : Option (List UInt8) :=
  SortedMap.get? headers name

/-- `HeaderMap::append` of a new name. A full map panics. -/
def HeaderMap.append (capacity : Nat) (headers : HeaderMap) (name : String) (value : List UInt8) :
    Outcome Empty HeaderMap :=
  if headers.length < capacity then .ok (headers ++ [(name, value)]) else .panic

/-- `str::starts_with`. -/
def startsWith (text lead : String) : Bool := lead.toList.isPrefixOf text.toList

/-- `str::ends_with`. -/
def endsWith (text tail : String) : Bool := tail.toList.isSuffixOf text.toList

structure Metadata where
  map : List (String × List UInt8) := []
  deriving DecidableEq, Repr

namespace Metadata

def keyByte (b : UInt8) : Bool :=
  (97 ≤ b && b ≤ 122) || (48 ≤ b && b ≤ 57) || b = 45 || b = 95 || b = 46

def validateKey (key : String) (allowReserved : Bool) : Except String Unit :=
  if key = "" then .error "empty metadata key"
  else if !allowReserved && (startsWith key "grpc-" || startsWith key ":") then
    .error s!"reserved metadata key `{key}`"
  else if (asBytes key).all keyByte then .ok ()
  else .error s!"invalid metadata key `{key}`: keys must be lowercase ASCII"

def insertBinaryInner (self : Metadata) (key : String) (value : List UInt8) :
    Except String Metadata :=
  if !endsWith key "-bin" && value.any (128 ≤ ·) then
    .error s!"non-ASCII value for non-binary key `{key}`"
  else .ok ⟨SortedMap.insert self.map key value⟩

def insertText (self : Metadata) (key value : String) : Except String Metadata := do
  validateKey key false
  self.insertBinaryInner key (asBytes value)

def insertBinary (self : Metadata) (key : String) (value : List UInt8) :
    Except String Metadata := do
  validateKey key false
  self.insertBinaryInner key value

def insertTextReceived (self : Metadata) (key value : String) : Except String Metadata := do
  validateKey key true
  self.insertBinaryInner key (asBytes value)

def insertRaw (self : Metadata) (key : String) (value : List UInt8) : Metadata :=
  ⟨SortedMap.insert self.map key value⟩

def getText (self : Metadata) (key : String) : Option String :=
  (SortedMap.get? self.map key).bind fromUtf8

def getBinary (self : Metadata) (key : String) : Option (List UInt8) :=
  SortedMap.get? self.map key

def keys (self : Metadata) : List String := self.map.map Prod.fst

def totalSize (self : Metadata) : Nat :=
  (self.map.map fun entry => (asBytes entry.1).length + entry.2.length).sum

variable (base64 : Base64)

/-- The bytes that a received text stands for under a key. -/
def receivedValue (key text : String) : Except String (List UInt8) :=
  if endsWith key "-bin" then
    match base64 text with
    | .ok value => .ok value
    | .error e => .error s!"invalid base64 for binary metadata `{key}`: {e}"
  else .ok (asBytes text)

/-- One turn of the loop in `parse`. -/
def receive (allowReserved : Bool) (self : Metadata) (header : String × String) :
    Except String Metadata := do
  validateKey header.1 allowReserved
  let value ← receivedValue base64 header.1 header.2
  .ok ⟨SortedMap.insert self.map header.1 value⟩

theorem receive_eq_ok {allowReserved : Bool} {self next : Metadata} {header : String × String} :
    receive base64 allowReserved self header = .ok next ↔
      validateKey header.1 allowReserved = .ok () ∧ ∃ value,
        receivedValue base64 header.1 header.2 = .ok value ∧
          next = ⟨SortedMap.insert self.map header.1 value⟩ := by
  unfold receive
  cases validateKey header.1 allowReserved with
  | error e => simp [bind, Except.bind]
  | ok =>
    cases receivedValue base64 header.1 header.2 with
    | error e => simp [bind, Except.bind]
    | ok value => simp [bind, Except.bind, eq_comm]

def parse (headers : List (String × String)) (maxSize : Nat) (allowReserved : Bool) :
    Except String Metadata := do
  let m ← headers.foldlM (receive base64 allowReserved) {}
  if m.totalSize > maxSize then
    .error s!"metadata size {m.totalSize} exceeds maximum {maxSize}"
  else .ok m

def fromHeaders (headers : List (String × String)) (maxSize : Nat) : Except String Metadata :=
  parse base64 headers maxSize false

def fromTrailers (headers : List (String × String)) (maxSize : Nat) : Except String Metadata :=
  parse base64 headers maxSize true

section Rendering

variable (encode : List UInt8 → String) (headerName : List UInt8 → Option String) (capacity : Nat)

/-- The text of a value under a key. -/
def renderedValue (key : String) (value : List UInt8) : String :=
  if endsWith key "-bin" then encode value else fromUtf8Lossy value

def toHeaders (self : Metadata) : List (String × String) :=
  self.map.map fun entry => (entry.1, renderedValue encode entry.1 entry.2)

/-- One turn of the loop in `to_header_map`. -/
def render (out : HeaderMap) (entry : String × List UInt8) : Outcome Empty HeaderMap :=
  match headerName (asBytes entry.1), fromStr (renderedValue encode entry.1 entry.2) with
  | some name, some val => out.append capacity name val
  | _, _ => .ok out

/-- The parameters are the base64 encoder, `HeaderName::from_bytes` and the most names that
a header map holds. -/
def toHeaderMap (self : Metadata) : Outcome Empty HeaderMap :=
  self.map.foldlM (render encode headerName capacity) []

end Rendering

end Metadata

/-- `Result::unwrap_or_default`. -/
def unwrapOrDefault {α : Type} (fallback : α) : Except String α → α
  | .ok value => value
  | .error _ => fallback

end TptProto.Grpc
