import TptProto.Core.Unknown
import TptProto.Foundation.Sequence

/-! The wire grammar of non-group fields, independent of any decoder: a frame is
a tag followed by a value whose extent its own wire type fixes. The reader's
operations are characterised against it. -/

namespace TptProto.Core

open TptProto.Foundation

/-- A varint on the wire: a numeral of at most ten bytes, read modulo `2 ^ 64`. -/
def WireVarint (bytes : List UInt8) (value : UInt64) : Prop :=
  ∃ denoted, Base128.Numeral bytes denoted ∧ bytes.length ≤ 10 ∧ value.toNat = denoted % 2 ^ 64

/-- The bytes of a value after its tag, in any of its encodings. -/
inductive ValueBytes : UnknownValue → List UInt8 → Prop where
  | varint {value : UInt64} {bytes : List UInt8} (wire : WireVarint bytes value) :
      ValueBytes (.varint value) bytes
  | fixed32 {bytes : List UInt8} (width : bytes.length = 4) :
      ValueBytes (.fixed32 (fromLeBytes32 bytes)) bytes
  | fixed64 {bytes : List UInt8} (width : bytes.length = 8) :
      ValueBytes (.fixed64 (fromLeBytes64 bytes)) bytes
  | lengthDelimited {len : UInt64} {header payload : List UInt8} (wire : WireVarint header len)
      (width : payload.length = len.toNat) :
      ValueBytes (.lengthDelimited payload) (header ++ payload)

/-- A field as the wire denotes it. The number is the whole of the tag above its
low three bits, before any narrowing. -/
structure Frame where
  number : Nat
  value : UnknownValue
  deriving DecidableEq, Repr

namespace Frame

def Bytes (frame : Frame) (bytes : List UInt8) : Prop :=
  ∃ tagBytes raw valueBytes, bytes = tagBytes ++ valueBytes ∧ WireVarint tagBytes raw ∧
    raw.toNat = 8 * frame.number + frame.value.wireType.asU8.toNat ∧
    ValueBytes frame.value valueBytes

/-- The 32-bit number `Tag::decode` keeps. -/
def stored (frame : Frame) : UInt32 := UInt32.ofNat frame.number

end Frame

/-- A concatenation of frames. -/
abbrev Frames : List Frame → List UInt8 → Prop := Sequence Frame.Bytes

theorem WireVarint.length_pos {bytes : List UInt8} {value : UInt64}
    (wire : WireVarint bytes value) : 0 < bytes.length := by
  obtain ⟨_, numeral, _⟩ := wire
  exact numeral.length_pos

theorem WireVarint.unique {bytes bytes' rest rest' : List UInt8} {value value' : UInt64}
    (first : WireVarint bytes value) (second : WireVarint bytes' value')
    (same : bytes ++ rest = bytes' ++ rest') :
    bytes = bytes' ∧ value = value' ∧ rest = rest' := by
  obtain ⟨_, numeral, _, value_eq⟩ := first
  obtain ⟨_, numeral', _, value_eq'⟩ := second
  obtain ⟨rfl, rfl, rfl⟩ := numeral.unique numeral' same
  exact ⟨rfl, UInt64.toNat_inj.mp (value_eq.trans value_eq'.symm), rfl⟩

theorem wireVarint_encodeVarint (value : UInt64) : WireVarint (encodeVarint value) value :=
  ⟨value.toNat, encodeVarint_numeral value, (encodeVarint_length_bounds value).2,
    (Nat.mod_eq_of_lt value.toNat_lt).symm⟩

/-- Among the encodings of a value the writer's is the shortest. -/
theorem WireVarint.minimal {bytes : List UInt8} {value : UInt64} (wire : WireVarint bytes value) :
    (encodeVarint value).length ≤ bytes.length := by
  obtain ⟨denoted, numeral, _, reduced⟩ := wire
  rw [encodeVarint_length]
  exact Nat.le_trans (Base128.size_mono (by rw [reduced]; exact Nat.mod_le _ _)) numeral.size_le

theorem decodeVarint_eq_ok {bytes : List UInt8} {start count : Nat} {value : UInt64} :
    decodeVarint bytes start = .ok (value, count) ↔
      ∃ header rest, bytes.drop start = header ++ rest ∧ WireVarint header value ∧
        count = header.length := by
  rw [decodeVarint_eq_ok_iff]
  constructor
  · rintro ⟨numeral, rest, denoted, split, numeralOk, rfl, bound, reduced⟩
    exact ⟨numeral, rest, split, ⟨denoted, numeralOk, bound, reduced⟩, rfl⟩
  · rintro ⟨numeral, rest, split, ⟨denoted, numeralOk, bound, reduced⟩, rfl⟩
    exact ⟨numeral, rest, denoted, split, numeralOk, rfl, bound, reduced⟩

theorem ValueBytes.length_pos {value : UnknownValue} {bytes : List UInt8}
    (wire : ValueBytes value bytes) : 0 < bytes.length := by
  cases wire with
  | varint wire => exact wire.length_pos
  | fixed32 width | fixed64 width => omega
  | lengthDelimited wire _ =>
    have := wire.length_pos
    simp only [List.length_append]
    omega

/-- The wire type and the bytes determine the value and where it ends. -/
theorem ValueBytes.unique {value value' : UnknownValue} {bytes bytes' rest rest' : List UInt8}
    (first : ValueBytes value bytes) (second : ValueBytes value' bytes')
    (kind : value.wireType = value'.wireType) (same : bytes ++ rest = bytes' ++ rest') :
    value = value' ∧ bytes = bytes' ∧ rest = rest' := by
  cases first with
  | varint wire =>
    cases second with
    | varint wire' =>
      obtain ⟨rfl, rfl, rfl⟩ := wire.unique wire' same
      exact ⟨rfl, rfl, rfl⟩
    | _ => cases kind
  | fixed32 width =>
    cases second with
    | fixed32 width' =>
      obtain ⟨rfl, rfl⟩ := List.append_inj same (width.trans width'.symm)
      exact ⟨rfl, rfl, rfl⟩
    | _ => cases kind
  | fixed64 width =>
    cases second with
    | fixed64 width' =>
      obtain ⟨rfl, rfl⟩ := List.append_inj same (width.trans width'.symm)
      exact ⟨rfl, rfl, rfl⟩
    | _ => cases kind
  | lengthDelimited wire width =>
    cases second with
    | lengthDelimited wire' width' =>
      rw [List.append_assoc, List.append_assoc] at same
      obtain ⟨rfl, rfl, tails⟩ := wire.unique wire' same
      obtain ⟨rfl, rfl⟩ := List.append_inj tails (width.trans width'.symm)
      exact ⟨rfl, rfl, rfl⟩
    | _ => cases kind

theorem UnknownValue.wireType_not_group (value : UnknownValue) :
    value.wireType.isGroup = false := by
  cases value <;> rfl

theorem asU8_inj {first second : WireType} (same : first.asU8.toNat = second.asU8.toNat) :
    first = second := by
  cases first <;> cases second <;> first | rfl | exact absurd same (by decide)

theorem Frame.Bytes.length_pos {frame : Frame} {bytes : List UInt8} (wire : frame.Bytes bytes) :
    0 < bytes.length := by
  obtain ⟨_, _, _, rfl, tag, _, _⟩ := wire
  have := tag.length_pos
  simp only [List.length_append]
  omega

theorem Frame.Bytes.unique {frame frame' : Frame} {bytes bytes' rest rest' : List UInt8}
    (first : frame.Bytes bytes) (second : frame'.Bytes bytes')
    (same : bytes ++ rest = bytes' ++ rest') :
    frame = frame' ∧ bytes = bytes' ∧ rest = rest' := by
  obtain ⟨tagBytes, raw, valueBytes, rfl, tag, denoted, value⟩ := first
  obtain ⟨tagBytes', raw', valueBytes', rfl, tag', denoted', value'⟩ := second
  rw [List.append_assoc, List.append_assoc] at same
  obtain ⟨rfl, rfl, tails⟩ := tag.unique tag' same
  have low := frame.value.wireType.asU8_lt
  have low' := frame'.value.wireType.asU8_lt
  have kind : frame.value.wireType = frame'.value.wireType := asU8_inj (by omega)
  obtain ⟨sameValue, rfl, rfl⟩ := value.unique value' kind tails
  have sameNumber : frame.number = frame'.number := by
    rw [kind] at denoted
    omega
  cases frame
  cases frame'
  simp_all

theorem frame_delimited : Delimited Frame.Bytes := ⟨Frame.Bytes.length_pos, Frame.Bytes.unique⟩

end TptProto.Core
