import TptProto.Core.Bytes
import TptProto.Core.WireType
import TptProto.Foundation.Loop
import TptProto.Foundation.Ieee

/-! The decoding cursor. Positions and counters are `usize` values, so every
sum is taken modulo `2 ^ 64`; `.panic` is a slice index out of order or range. -/

namespace TptProto.Core

open TptProto.Foundation

structure Reader where
  buf : Slice
  pos : Nat
  depth : UInt32
  fieldCount : Nat
  limits : DecoderLimits
  bytesRead : Nat
  pos_le : pos ≤ buf.length

namespace Reader

def withLimits (buf : Slice) (limits : DecoderLimits) : Reader where
  buf
  pos := 0
  depth := 0
  fieldCount := 0
  limits
  bytesRead := 0
  pos_le := Nat.zero_le _

def new (buf : Slice) : Reader := withLimits buf .default

def setPos (r : Reader) (pos : Nat) : Result Reader :=
  if inside : pos ≤ r.buf.length then .ok { r with pos, pos_le := inside } else .err .unexpectedEof

def bufSlice (r : Reader) (start stop : Nat) : Result Slice :=
  Outcome.ofOption .unexpectedEof (r.buf.range? start stop)

def remaining (r : Reader) : Nat := r.buf.length - r.pos

def isEmpty (r : Reader) : Bool := r.pos ≥ r.buf.length

/-- `&self.buf[start..stop]`. -/
def index (r : Reader) (start stop : Nat) : Result Slice :=
  match r.buf.range? start stop with
  | some part => .ok part
  | none => .panic

def advance (r : Reader) (n : Nat) : Result Reader :=
  if inside : usizeAdd r.pos n ≤ r.buf.length then do
    let r := { r with
      pos := usizeAdd r.pos n, bytesRead := usizeAdd r.bytesRead n, pos_le := inside }
    r.limits.checkBytes r.bytesRead
    .ok r
  else .err .unexpectedEof

def readVarint (r : Reader) : Result (UInt64 × Reader) := do
  let (value, n) ← decodeVarint r.buf.bytes r.pos
  let r ← r.advance n
  .ok (value, r)

def readVarintRaw (r : Reader) : Result (UInt64 × Slice × Reader) := do
  let (value, n) ← decodeVarint r.buf.bytes r.pos
  let slice ← r.index r.pos (usizeAdd r.pos n)
  let r ← r.advance n
  .ok (value, slice, r)

def readTag (r : Reader) : Result (Tag × Reader) := do
  let (tag, n) ← Tag.decode r.buf.bytes r.pos
  let r ← r.advance n
  let r := { r with fieldCount := usizeAdd r.fieldCount 1 }
  r.limits.checkField r.fieldCount
  .ok (tag, r)

def readLengthDelimited (r : Reader) : Result (Slice × Reader) := do
  let (value, r) ← r.readVarint
  let len := value.toNat
  r.limits.checkLength len
  if usizeAdd r.pos len > r.buf.length then .err (.lengthLimitExceeded len)
  else do
    let slice ← r.index r.pos (usizeAdd r.pos len)
    let r ← r.advance len
    .ok (slice, r)

/-- The shape of the two fixed-width reads. -/
def readFixed (r : Reader) (width : Nat) : Result (Slice × Reader) :=
  if usizeAdd r.pos width > r.buf.length then .err .unexpectedEof
  else do
    let bytes ← r.index r.pos (usizeAdd r.pos width)
    let r ← r.advance width
    .ok (bytes, r)

def readFixed32 (r : Reader) : Result (UInt32 × Reader) := do
  let (bytes, r) ← r.readFixed 4
  .ok (fromLeBytes32 bytes.bytes, r)

def readFixed64 (r : Reader) : Result (UInt64 × Reader) := do
  let (bytes, r) ← r.readFixed 8
  .ok (fromLeBytes64 bytes.bytes, r)

def readStringOwned (r : Reader) : Result (String × Reader) := do
  let (bytes, r) ← r.readLengthDelimited
  r.limits.checkString bytes.length
  let text ← Outcome.ofOption (.utf8Error (validUpTo bytes.bytes)) (fromUtf8 bytes.bytes)
  .ok (text, r)

/-- The sub-reader `nested` builds: same limits, one level deeper, fresh counters. -/
def childAt (limits : DecoderLimits) (depth : UInt32) (buf : Slice) : Reader where
  buf
  pos := 0
  depth := depth + 1
  fieldCount := 0
  limits
  bytesRead := 0
  pos_le := Nat.zero_le _

/-- `nested` of any cursor with these limits and this depth. -/
def nestedAt (limits : DecoderLimits) (depth : UInt32) (buf : Slice) : Result Reader :=
  if depth + 1 > limits.maxDepth then .err .depthLimitExceeded else .ok (childAt limits depth buf)

def child (r : Reader) (buf : Slice) : Reader := childAt r.limits r.depth buf

def nested (r : Reader) (buf : Slice) : Result Reader := nestedAt r.limits r.depth buf

/-- One pass of the group loop of `skip_inner`; the flag clears at the end-group tag. -/
def skipGroupStep (skipField : WireType → Reader → Result Reader) (state : Reader × Bool) :
    Result (Reader × Bool) :=
  if state.1.isEmpty then .err (.unterminatedGroup 0)
  else do
    let (tag, r) ← state.1.readTag
    if tag.wireType = .endGroup then .ok (r, false)
    else do
      let r ← skipField tag.wireType r
      .ok (r, true)

/-- `skip_inner`. The budget bounds both the nesting and the passes of each group loop. -/
def skipInner : Nat → WireType → UInt32 → Reader → Result Reader
  | fuel, wireType, depth, r =>
    match wireType with
    | .varint => do
      let (_, r) ← r.readVarint
      .ok r
    | .fixed64 => do
      let (_, r) ← r.readFixed64
      .ok r
    | .fixed32 => do
      let (_, r) ← r.readFixed32
      .ok r
    | .lengthDelimited => do
      let (value, r) ← r.readVarint
      let len := value.toNat
      r.limits.checkLength len
      r.advance len
    | .startGroup =>
      match fuel with
      | 0 => .outOfFuel
      | fuel + 1 =>
        let childDepth := depth + 1
        if childDepth > r.limits.maxDepth then .err .depthLimitExceeded
        else do
          let (r, _) ← loop Prod.snd
            (skipGroupStep fun wireType => skipInner fuel wireType childDepth) (fuel + 1) (r, true)
          .ok r
    | .endGroup => .err (.unexpectedWireType 4)

/-- `skip` with a budget that suffices whenever the position only moves forward. -/
def skip (r : Reader) (wireType : WireType) : Result Reader :=
  skipInner (r.remaining + 1) wireType r.depth r

/-- `while !r.is_empty() { body }`, with a pass for each byte left. -/
def drain {ε α : Type} (body : α × Reader → Outcome ε (α × Reader)) (start : α) (r : Reader) :
    Outcome ε (α × Reader) :=
  loop (fun state => !state.2.isEmpty) body r.remaining (start, r)

end Reader

end TptProto.Core

/-! Reads of scalar fields after their tag, and the writers' casts to the wire's
unsigned words. Floats are bit patterns. -/

namespace TptProto.Core

open TptProto.Foundation

/-- `v as u64` of a signed 32-bit value: the sign is extended. -/
def int32Word (v : Int32) : UInt64 := v.toInt64.toUInt64

/-- `v as u64` of a boolean. -/
def boolWord (v : Bool) : UInt64 := if v then 1 else 0

/-- `v as i32` of a 64-bit word. -/
def wordInt32 (v : UInt64) : Int32 := v.toUInt32.toInt32

theorem wordInt32_int32Word (v : Int32) : wordInt32 (int32Word v) = v := by
  have cut : (v.toBitVec.signExtend 64).setWidth 32 = v.toBitVec := by
    ext i here
    simp [BitVec.getElem_signExtend, here, show i < 64 by omega]
  exact Int32.toBitVec_inj.mp cut

section Writers

variable {ε : Type}

/-- The shape of `varint_field!`: a tag and the value cast to a word. -/
def encodeVarintField {α : Type} (word : α → UInt64) (field : UInt32) (value : α) :
    Outcome ε (List UInt8) := do
  let tag ← writeTag field .varint
  .ok (tag ++ encodeVarint (word value))

def encodeInt32 : UInt32 → Int32 → Outcome ε (List UInt8) := encodeVarintField int32Word
def encodeInt64 : UInt32 → Int64 → Outcome ε (List UInt8) := encodeVarintField Int64.toUInt64
def encodeUint32 : UInt32 → UInt32 → Outcome ε (List UInt8) := encodeVarintField UInt32.toUInt64
def encodeUint64 : UInt32 → UInt64 → Outcome ε (List UInt8) := encodeVarintField id
def encodeBool : UInt32 → Bool → Outcome ε (List UInt8) := encodeVarintField boolWord
def encodeSint32 : UInt32 → Int32 → Outcome ε (List UInt8) :=
  encodeVarintField fun value => (encodeZigzag32 value).toUInt64
def encodeSint64 : UInt32 → Int64 → Outcome ε (List UInt8) := encodeVarintField encodeZigzag64
def encodeEnum : UInt32 → Int32 → Outcome ε (List UInt8) := encodeInt32

def encodeFixed32 (field : UInt32) (value : UInt32) : Outcome ε (List UInt8) := do
  let tag ← writeTag field .fixed32
  .ok (tag ++ writeFixed32 value)

def encodeFixed64 (field : UInt32) (value : UInt64) : Outcome ε (List UInt8) := do
  let tag ← writeTag field .fixed64
  .ok (tag ++ writeFixed64 value)

def encodeSfixed32 (field : UInt32) (value : Int32) : Outcome ε (List UInt8) :=
  encodeFixed32 field value.toUInt32

def encodeSfixed64 (field : UInt32) (value : Int64) : Outcome ε (List UInt8) :=
  encodeFixed64 field value.toUInt64

/-- The float is given by `f32::to_bits`. -/
def encodeFloat (field : UInt32) (bits : UInt32) : Outcome ε (List UInt8) := encodeFixed32 field bits

/-- The double is given by `f64::to_bits`. -/
def encodeDouble (field : UInt32) (bits : UInt64) : Outcome ε (List UInt8) := encodeFixed64 field bits

def encodeString (field : UInt32) (value : String) : Outcome ε (List UInt8) := do
  let tag ← writeTag field .lengthDelimited
  .ok (tag ++ writeString value)

def encodeBytes (field : UInt32) (value : List UInt8) : Outcome ε (List UInt8) := do
  let tag ← writeTag field .lengthDelimited
  .ok (tag ++ writeLengthDelimited value)

/-- A tag, an inner writer, and what it holds as a length-delimited value. -/
def writeMessage (field : UInt32) (inner : Outcome ε (List UInt8)) : Outcome ε (List UInt8) := do
  let tag ← writeTag field .lengthDelimited
  let body ← inner
  .ok (tag ++ writeLengthDelimited body)

end Writers

namespace Reader

/-- The shape of the scalar reads: a word and its conversion. -/
def readAs {α β : Type} (convert : α → β) (read : Reader → Result (α × Reader)) (r : Reader) :
    Result (β × Reader) := do
  let (value, r) ← read r
  .ok (convert value, r)

theorem readAs_eq_ok {α β : Type} {convert : α → β} {read : Reader → Result (α × Reader)}
    {r r' : Reader} {value : β} :
    readAs convert read r = .ok (value, r') ↔ ∃ word, read r = .ok (word, r') ∧ convert word = value := by
  simp only [readAs, Outcome.bind_eq_ok, Prod.exists, Outcome.ok.injEq, Prod.mk.injEq]
  constructor
  · rintro ⟨word, _, source, same, rfl⟩
    exact ⟨word, source, same⟩
  · rintro ⟨word, source, same⟩
    exact ⟨word, r', source, same, rfl⟩

def readInt32 : Reader → Result (Int32 × Reader) := readAs wordInt32 readVarint
def readInt64 : Reader → Result (Int64 × Reader) := readAs UInt64.toInt64 readVarint
def readUint32 : Reader → Result (UInt32 × Reader) := readAs UInt64.toUInt32 readVarint
def readUint64 : Reader → Result (UInt64 × Reader) := readVarint
def readBool : Reader → Result (Bool × Reader) := readAs (fun word => word != 0) readVarint
def readSint32 : Reader → Result (Int32 × Reader) :=
  readAs (fun word => decodeZigzag32 word.toUInt32) readVarint
def readSint64 : Reader → Result (Int64 × Reader) := readAs decodeZigzag64 readVarint
def readSfixed32 : Reader → Result (Int32 × Reader) := readAs UInt32.toInt32 readFixed32
def readSfixed64 : Reader → Result (Int64 × Reader) := readAs UInt64.toInt64 readFixed64

/-- `read_string` makes the checks of `read_string_owned` and borrows the text. -/
def readString : Reader → Result (String × Reader) := readStringOwned

/-- `f32::from_bits` of the four bytes. -/
def readFloat : Reader → Result (UInt32 × Reader) := readFixed32

/-- `f64::from_bits` of the eight bytes. -/
def readDouble : Reader → Result (UInt64 × Reader) := readFixed64

end Reader

end TptProto.Core
