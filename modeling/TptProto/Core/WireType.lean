import TptProto.Core.Varint

/-! Wire types, field tags and the append-only writer. A writer operation is
modelled by the bytes it appends; `.panic` is the failed `expect` of `write_tag`. -/

namespace TptProto.Core

open TptProto.Foundation

inductive WireType where
  | varint
  | fixed64
  | lengthDelimited
  | startGroup
  | endGroup
  | fixed32
  deriving DecidableEq, Repr

namespace WireType

def fromU8 (value : UInt8) : Option WireType :=
  if value = 0 then some varint
  else if value = 1 then some fixed64
  else if value = 2 then some lengthDelimited
  else if value = 3 then some startGroup
  else if value = 4 then some endGroup
  else if value = 5 then some fixed32
  else none

def asU8 : WireType → UInt8
  | varint => 0
  | fixed64 => 1
  | lengthDelimited => 2
  | startGroup => 3
  | endGroup => 4
  | fixed32 => 5

@[simp] theorem fromU8_asU8 (wireType : WireType) : fromU8 wireType.asU8 = some wireType := by
  cases wireType <;> rfl

theorem asU8_lt (wireType : WireType) : wireType.asU8.toNat < 8 := by
  cases wireType <;> decide

/-- Legacy groups have no value extent of their own. -/
def isGroup : WireType → Bool
  | startGroup | endGroup => true
  | _ => false

end WireType

/-- A field tag. `Tag::new` rejects the field number zero. -/
structure Tag where
  fieldNumber : UInt32
  wireType : WireType
  nonzero : fieldNumber ≠ 0
  deriving DecidableEq

namespace Tag

section Numbers

theorem nonzero_one : (1 : UInt32) ≠ 0 := by decide

theorem nonzero_two : (2 : UInt32) ≠ 0 := by decide

theorem nonzero_three : (3 : UInt32) ≠ 0 := by decide

theorem nonzero_seven : (7 : UInt32) ≠ 0 := by decide

/-- The first number past those that 32 bits have room for. -/
theorem nonzero_past : (536870912 : UInt32) ≠ 0 := by decide

end Numbers

def new (fieldNumber : UInt32) (wireType : WireType) : Option Tag :=
  if nonzero : fieldNumber = 0 then none else some ⟨fieldNumber, wireType, nonzero⟩

/-- `(field_number << 3) | wire_type`, computed in 32 bits and then widened. -/
def raw (fieldNumber : UInt32) (wireType : WireType) : UInt64 :=
  ((fieldNumber <<< 3) ||| wireType.asU8.toUInt32).toUInt64

def encode (tag : Tag) : List UInt8 := encodeVarint (raw tag.fieldNumber tag.wireType)

def decode (bytes : List UInt8) (start : Nat) : Result (Tag × Nat) := do
  let (raw, n) ← decodeVarint bytes start
  let fieldNumber := (raw >>> 3).toUInt32
  let wireValue := (raw &&& 0x7).toUInt8
  let wireType ← Outcome.ofOption (.invalidTag raw.toUInt32) (WireType.fromU8 wireValue)
  let tag ← Outcome.ofOption (.invalidTag fieldNumber) (Tag.new fieldNumber wireType)
  .ok (tag, n)

@[ext] theorem ext {tag tag' : Tag} (number : tag.fieldNumber = tag'.fieldNumber)
    (kind : tag.wireType = tag'.wireType) : tag = tag' := by
  cases tag
  cases tag'
  simp_all

theorem new_eq_some {fieldNumber : UInt32} {wireType : WireType} {tag : Tag} :
    new fieldNumber wireType = some tag ↔
      tag.fieldNumber = fieldNumber ∧ tag.wireType = wireType := by
  unfold new
  split
  · rename_i zero
    simp only [reduceCtorEq, false_iff]
    rintro ⟨rfl, _⟩
    exact tag.nonzero zero
  · cases tag
    simp [eq_comm]

theorem raw_toNat (fieldNumber : UInt32) (wireType : WireType) :
    (raw fieldNumber wireType).toNat =
      8 * (fieldNumber.toNat % 2 ^ 29) + wireType.asU8.toNat := by
  have low := wireType.asU8_lt
  have shifted : (fieldNumber <<< 3).toNat = 2 ^ 3 * (fieldNumber.toNat % 2 ^ 29) := by
    rw [UInt32.toNat_shiftLeft]
    simp only [UInt32.reduceToNat, Nat.reduceMod, Nat.shiftLeft_eq]
    omega
  rw [raw, UInt32.toNat_toUInt64, UInt32.toNat_or, shifted, UInt8.toNat_toUInt32,
    ← Nat.two_pow_add_eq_or_of_lt low]

/-- What a raw tag denotes: the number above the low three bits, cut to 32
bits, and the wire type in the low three. -/
theorem decode_eq_ok_iff {bytes : List UInt8} {start count : Nat} {tag : Tag} :
    decode bytes start = .ok (tag, count) ↔
      ∃ raw : UInt64, decodeVarint bytes start = .ok (raw, count) ∧
        tag.fieldNumber.toNat = raw.toNat / 8 % 2 ^ 32 ∧ tag.wireType.asU8.toNat = raw.toNat % 8 := by
  have number (raw : UInt64) : (raw >>> 3).toUInt32.toNat = raw.toNat / 8 % 2 ^ 32 := by
    rw [UInt64.toNat_toUInt32, UInt64.toNat_shiftRight]
    simp [Nat.shiftRight_eq_div_pow]
  have kind (raw : UInt64) : (raw &&& 0x7).toUInt8.toNat = raw.toNat % 8 := by
    rw [UInt64.toNat_toUInt8, UInt64.toNat_and]
    have mask : raw.toNat &&& (7 : UInt64).toNat = raw.toNat % 2 ^ 3 :=
      Nat.and_two_pow_sub_one_eq_mod raw.toNat 3
    omega
  have type (value : UInt8) (wireType : WireType) :
      WireType.fromU8 value = some wireType ↔ wireType.asU8 = value := by
    constructor
    · intro found
      unfold WireType.fromU8 at found
      grind [WireType.asU8]
    · rintro rfl
      exact WireType.fromU8_asU8 wireType
  simp only [decode, Outcome.bind_eq_ok, Prod.exists, Outcome.ofOption_eq_ok, type, new_eq_some,
    Outcome.ok.injEq, Prod.mk.injEq]
  constructor
  · rintro ⟨raw, n, decoded, wireType, sameType, tag', ⟨sameNumber, rfl⟩, rfl, rfl⟩
    exact ⟨raw, decoded, by rw [sameNumber, number], by rw [sameType, kind]⟩
  · rintro ⟨raw, decoded, sameNumber, sameType⟩
    refine ⟨raw, count, decoded, tag.wireType, ?_, tag, ⟨?_, rfl⟩, rfl, rfl⟩
    · apply UInt8.toNat_inj.mp
      rw [sameType, kind]
    · apply UInt32.toNat_inj.mp
      rw [sameNumber, number]

theorem decode_returns {bytes : List UInt8} {start : Nat} : (decode bytes start).Returns :=
  decodeVarint_returns.bind fun _ _ =>
    (Outcome.Returns.ofOption _ _).bind fun _ _ =>
      (Outcome.Returns.ofOption _ _).bind fun _ _ => .ok _

theorem decode_bounds {bytes : List UInt8} {start count : Nat} {tag : Tag}
    (success : decode bytes start = .ok (tag, count)) :
    0 < count ∧ count ≤ 10 ∧ start + count ≤ bytes.length := by
  obtain ⟨_, decoded, _⟩ := decode_eq_ok_iff.mp success
  exact decodeVarint_bounds decoded

end Tag

/-- The bytes `Writer::write_tag` appends. -/
def writeTag {ε : Type} (fieldNumber : UInt32) (wireType : WireType) : Outcome ε (List UInt8) :=
  match Tag.new fieldNumber wireType with
  | some tag => .ok tag.encode
  | none => .panic

/-- The bytes `Writer::write_length_delimited` appends. -/
def writeLengthDelimited (bytes : List UInt8) : List UInt8 :=
  encodeVarint (UInt64.ofNat bytes.length) ++ bytes

/-- `u32::to_le_bytes`. -/
def writeFixed32 (value : UInt32) : List UInt8 :=
  (List.range 4).map fun i => (value >>> UInt32.ofNat (8 * i)).toUInt8

/-- `u64::to_le_bytes`. -/
def writeFixed64 (value : UInt64) : List UInt8 :=
  (List.range 8).map fun i => (value >>> UInt64.ofNat (8 * i)).toUInt8

/-- Append a list of written chunks, stopping at the first that does not succeed. -/
def writeEach {α ε : Type} (write : α → Outcome ε (List UInt8)) : List α → Outcome ε (List UInt8)
  | [] => .ok []
  | item :: rest => do
    let head ← write item
    let tail ← writeEach write rest
    .ok (head ++ tail)

def writeString (value : String) : List UInt8 := writeLengthDelimited (asBytes value)

/-- `u32::from_le_bytes`. -/
def fromLeBytes32 (bytes : List UInt8) : UInt32 :=
  bytes.foldr (fun byte high => byte.toUInt32 ||| (high <<< 8)) 0

/-- `u64::from_le_bytes`. -/
def fromLeBytes64 (bytes : List UInt8) : UInt64 :=
  bytes.foldr (fun byte high => byte.toUInt64 ||| (high <<< 8)) 0

@[simp] theorem writeFixed32_length (value : UInt32) : (writeFixed32 value).length = 4 := rfl

@[simp] theorem writeFixed64_length (value : UInt64) : (writeFixed64 value).length = 8 := rfl

private theorem joinByte32 (byte : UInt8) (high : UInt32) :
    (byte.toUInt32 ||| (high <<< 8)).toNat = byte.toNat + 2 ^ 8 * (high.toNat % 2 ^ 24) := by
  have shifted : (high <<< 8).toNat = 2 ^ 8 * (high.toNat % 2 ^ 24) := by
    rw [UInt32.toNat_shiftLeft]
    simp only [UInt32.reduceToNat, Nat.reduceMod, Nat.shiftLeft_eq]
    omega
  rw [UInt32.toNat_or, shifted, UInt8.toNat_toUInt32, Nat.or_comm,
    ← Nat.two_pow_add_eq_or_of_lt byte.toNat_lt, Nat.add_comm]

private theorem joinByte64 (byte : UInt8) (high : UInt64) :
    (byte.toUInt64 ||| (high <<< 8)).toNat = byte.toNat + 2 ^ 8 * (high.toNat % 2 ^ 56) := by
  have shifted : (high <<< 8).toNat = 2 ^ 8 * (high.toNat % 2 ^ 56) := by
    rw [UInt64.toNat_shiftLeft]
    simp only [UInt64.reduceToNat, Nat.reduceMod, Nat.shiftLeft_eq]
    omega
  rw [UInt64.toNat_or, shifted, UInt8.toNat_toUInt64, Nat.or_comm,
    ← Nat.two_pow_add_eq_or_of_lt byte.toNat_lt, Nat.add_comm]

private theorem byteOf32 (value : UInt32) (i : Nat) (small : i < 4) :
    (value >>> UInt32.ofNat (8 * i)).toUInt8.toNat = value.toNat / 2 ^ (8 * i) % 2 ^ 8 := by
  rw [UInt32.toNat_toUInt8, UInt32.toNat_shiftRight, UInt32.toNat_ofNat', Nat.shiftRight_eq_div_pow]
  rw [show 8 * i % 2 ^ 32 % 32 = 8 * i by omega]

@[simp] theorem fromLeBytes32_writeFixed32 (value : UInt32) :
    fromLeBytes32 (writeFixed32 value) = value := by
  have bound := value.toNat_lt
  apply UInt32.toNat_inj.mp
  simp only [fromLeBytes32, writeFixed32, List.range, List.range.loop, List.map_cons, List.map_nil,
    List.foldr_cons, List.foldr_nil, joinByte32, byteOf32 value 0 (by omega),
    byteOf32 value 1 (by omega), byteOf32 value 2 (by omega), byteOf32 value 3 (by omega)]
  simp only [UInt32.toNat_zero]
  omega

/-- Four bytes are the writing of the word they are read as. -/
theorem writeFixed32_fromLeBytes32 {bytes : List UInt8} (width : bytes.length = 4) :
    writeFixed32 (fromLeBytes32 bytes) = bytes := by
  match bytes, width with
  | [a, b, c, d], _ =>
    have := a.toNat_lt
    have := b.toNat_lt
    have := c.toNat_lt
    have := d.toNat_lt
    have value : (fromLeBytes32 [a, b, c, d]).toNat =
        a.toNat + 2 ^ 8 * (b.toNat + 2 ^ 8 * (c.toNat + 2 ^ 8 * d.toNat)) := by
      simp only [fromLeBytes32, List.foldr_cons, List.foldr_nil, joinByte32, UInt32.toNat_zero]
      omega
    simp only [writeFixed32, List.range, List.range.loop, List.map_cons, List.map_nil,
      List.cons.injEq, and_true, ← UInt8.toNat_inj]
    refine ⟨?_, ?_, ?_, ?_⟩
    · rw [byteOf32 _ 0 (by omega), value]
      omega
    · rw [byteOf32 _ 1 (by omega), value]
      omega
    · rw [byteOf32 _ 2 (by omega), value]
      omega
    · rw [byteOf32 _ 3 (by omega), value]
      omega

@[simp] theorem fromLeBytes64_writeFixed64 (value : UInt64) :
    fromLeBytes64 (writeFixed64 value) = value := by
  have byte (i : Nat) (small : i < 8) : (value >>> UInt64.ofNat (8 * i)).toUInt8.toNat =
      value.toNat / 2 ^ (8 * i) % 2 ^ 8 := by
    rw [UInt64.toNat_toUInt8, UInt64.toNat_shiftRight, UInt64.toNat_ofNat', Nat.shiftRight_eq_div_pow]
    rw [show 8 * i % 2 ^ 64 % 64 = 8 * i by omega]
  have bound := value.toNat_lt
  apply UInt64.toNat_inj.mp
  simp only [fromLeBytes64, writeFixed64, List.range, List.range.loop, List.map_cons, List.map_nil,
    List.foldr_cons, List.foldr_nil, joinByte64, byte 0 (by omega), byte 1 (by omega),
    byte 2 (by omega), byte 3 (by omega), byte 4 (by omega), byte 5 (by omega), byte 6 (by omega),
    byte 7 (by omega)]
  simp only [UInt64.toNat_zero]
  omega

end TptProto.Core
