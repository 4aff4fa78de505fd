import Mathlib.Algebra.GroupWithZero.Nat
import TptProto.Foundation.Outcome

/-! Byte slices, `usize` arithmetic and UTF-8 validation as the runtime's host
language provides them. Sizes are those of a 64-bit target. -/

namespace TptProto.Core

/-- `usize` addition in a build without overflow checks. -/
def usizeAdd (a b : Nat) : Nat := (a + b) % 2 ^ 64

theorem usizeAdd_of_lt {a b : Nat} (fits : a + b < 2 ^ 64) : usizeAdd a b = a + b :=
  Nat.mod_eq_of_lt fits

theorem usizeAdd_le (a b : Nat) : usizeAdd a b ≤ a + b := Nat.mod_le _ _

/-- A borrowed byte slice. No allocation exceeds `isize::MAX` bytes. -/
@[ext] structure Slice where
  bytes : List UInt8
  length_lt : bytes.length < 2 ^ 63
  deriving DecidableEq

namespace Slice

def length (slice : Slice) : Nat := slice.bytes.length

theorem length_lt_usize (slice : Slice) : slice.length < 2 ^ 63 := slice.length_lt

def empty : Slice := ⟨[], by decide⟩

/-- `&slice[start..stop]`, which panics when the bounds are out of order or range. -/
def range? (slice : Slice) (start stop : Nat) : Option Slice :=
  if start ≤ stop ∧ stop ≤ slice.length then
    some ⟨(slice.bytes.drop start).take (stop - start), by
      have bound := slice.length_lt
      simp only [List.length_take, List.length_drop]
      omega⟩
  else none

theorem range?_eq_some {slice part : Slice} {start stop : Nat} :
    slice.range? start stop = some part ↔
      start ≤ stop ∧ stop ≤ slice.length ∧
        part.bytes = (slice.bytes.drop start).take (stop - start) := by
  unfold range?
  constructor
  · intro found
    split at found
    · rename_i bounds
      cases found
      exact ⟨bounds.1, bounds.2, rfl⟩
    · cases found
  · rintro ⟨ordered, inside, same⟩
    rw [if_pos ⟨ordered, inside⟩]
    cases part
    simp only [Option.some.injEq, mk.injEq]
    exact same.symm

theorem range?_isSome {slice : Slice} {start stop : Nat} (ordered : start ≤ stop)
    (inside : stop ≤ slice.length) : ∃ part, slice.range? start stop = some part := by
  unfold range?
  rw [if_pos ⟨ordered, inside⟩]
  exact ⟨_, rfl⟩

theorem range?_eq_none {slice : Slice} {start stop : Nat} (bad : stop < start) :
    slice.range? start stop = none := by
  unfold range?
  rw [if_neg (by omega)]

/-- Bytes known to come from a slice, as a slice again. -/
def ofBytes (bytes : List UInt8) : Slice :=
  if length_lt : bytes.length < 2 ^ 63 then ⟨bytes, length_lt⟩ else empty

@[simp] theorem ofBytes_bytes (slice : Slice) : ofBytes slice.bytes = slice := by
  rw [ofBytes, dif_pos slice.length_lt]

theorem bytes_ofBytes {bytes : List UInt8} (length_lt : bytes.length < 2 ^ 63) :
    (ofBytes bytes).bytes = bytes := by
  rw [ofBytes, dif_pos length_lt]

theorem length_ofBytes_le (bytes : List UInt8) : (ofBytes bytes).length ≤ bytes.length := by
  unfold ofBytes
  split
  · exact Nat.le_refl _
  · exact Nat.zero_le _

end Slice

/-- `String::from_utf8`. -/
def fromUtf8 (bytes : List UInt8) : Option String := String.fromUTF8? ⟨bytes.toArray⟩

/-- `str::as_bytes`. -/
def asBytes (text : String) : List UInt8 := text.toUTF8.data.toList

theorem fromUtf8_asBytes (text : String) : fromUtf8 (asBytes text) = some text := by
  have same : (⟨(asBytes text).toArray⟩ : ByteArray) = text.toByteArray := by
    simp [asBytes, String.toUTF8]
  unfold fromUtf8
  rw [same]
  simp [String.fromUTF8?, text.isValidUTF8, String.fromUTF8]

theorem asBytes_of_fromUtf8 {bytes : List UInt8} {text : String}
    (decoded : fromUtf8 bytes = some text) : asBytes text = bytes := by
  unfold fromUtf8 String.fromUTF8? at decoded
  split at decoded
  · cases decoded
    simp [asBytes, String.toUTF8, String.fromUTF8]
  · cases decoded

theorem asBytes_inj {first second : String} (same : asBytes first = asBytes second) :
    first = second := by
  have decoded := fromUtf8_asBytes first
  rw [same, fromUtf8_asBytes] at decoded
  exact (Option.some.inj decoded).symm

theorem asBytes_ofList (chars : List Char) :
    asBytes (String.ofList chars) = chars.flatMap String.utf8EncodeChar := by
  simp [asBytes, String.toUTF8, List.utf8Encode]

/-- A byte as the character of its code. -/
def byteChar (b : UInt8) : Char := Char.ofNat b.toNat

private theorem utf8EncodeChar_byteChar {b : UInt8} (ascii : b < 128) :
    String.utf8EncodeChar (byteChar b) = [b] := by
  have small : b.toNat < 128 := ascii
  have valid : b.toNat.isValidChar := .inl (by omega)
  have code : (byteChar b).val.toNat = b.toNat := by
    rw [byteChar, Char.ofNat, dif_pos valid]
    rfl
  simp only [String.utf8EncodeChar, code, if_pos (show b.toNat ≤ 0x7f by omega), UInt8.ofNat_toNat]

/-- ASCII text has one byte for each character. -/
theorem asBytes_byteChars {bytes : List UInt8} (ascii : ∀ b ∈ bytes, b < 128) :
    asBytes (String.ofList (bytes.map byteChar)) = bytes := by
  rw [asBytes_ofList]
  induction bytes with
  | nil => rfl
  | cons b rest inductionHypothesis =>
    rw [List.map_cons, List.flatMap_cons, utf8EncodeChar_byteChar (ascii b List.mem_cons_self),
      inductionHypothesis fun other member => ascii other (List.mem_cons_of_mem _ member)]
    rfl

/-- `Utf8Error::valid_up_to`: the longest prefix that is valid UTF-8. -/
def validUpTo (bytes : List UInt8) : Nat :=
  ((List.range (bytes.length + 1)).reverse.find? fun n => (fromUtf8 (bytes.take n)).isSome).getD 0

/-- The bytes of a character that starts with this one. -/
def sequenceWidth (lead : UInt8) : Nat :=
  if 0xC2 ≤ lead && lead ≤ 0xDF then 2
  else if 0xE0 ≤ lead && lead ≤ 0xEF then 3
  else if 0xF0 ≤ lead && lead ≤ 0xF4 then 4
  else 1

/-- Whether a well-formed character may go on so after its first byte. -/
def secondByte (lead second : UInt8) : Bool :=
  (if lead = 0xE0 then 0xA0 else if lead = 0xF0 then 0x90 else 0x80) ≤ second &&
    second ≤ (if lead = 0xED then 0x9F else if lead = 0xF4 then 0x8F else 0xBF)

/-- The ill-formed bytes in front that one replacement character stands for: the longest
beginning of a character, or one byte. -/
def replacedLength : List UInt8 → Nat
  | lead :: second :: rest =>
    if sequenceWidth lead ≠ 1 && secondByte lead second then
      2 + ((rest.take (sequenceWidth lead - 2)).takeWhile fun b => 0x80 ≤ b && b ≤ 0xBF).length
    else 1
  | _ => 1

/-- Valid stretches of the bytes, with replacement characters between them. -/
def lossyChunks : Nat → List UInt8 → String
  | 0, _ => ""
  | fuel + 1, bytes =>
    match fromUtf8 bytes with
    | some text => text
    | none =>
      let valid := validUpTo bytes
      (fromUtf8 (bytes.take valid)).getD "" ++ "\uFFFD" ++
        lossyChunks fuel (bytes.drop (valid + replacedLength (bytes.drop valid)))

/-- `String::from_utf8_lossy`. -/
def fromUtf8Lossy (bytes : List UInt8) : String := lossyChunks (bytes.length + 1) bytes

theorem fromUtf8Lossy_asBytes (text : String) : fromUtf8Lossy (asBytes text) = text := by
  rw [fromUtf8Lossy, lossyChunks, fromUtf8_asBytes]

end TptProto.Core
