import TptProto.Core.Reader
import TptProto.Core.FieldLoop

/-! Every scalar field that is written is read back, by the read of its own type, whatever
follows it. The only conditions are the budgets of the reader. -/

namespace TptProto.Core

open TptProto.Foundation

/-- The scalar types, each with its writer and its read. -/
inductive ScalarType where
  | int32 | int64 | uint32 | uint64 | sint32 | sint64 | bool | enum
  | fixed32 | fixed64 | sfixed32 | sfixed64 | float | double | string | bytes

namespace ScalarType

/-- The values of a type; floats are their bits. -/
def Value : ScalarType → Type
  | .int32 | .sint32 | .enum | .sfixed32 => Int32
  | .int64 | .sint64 | .sfixed64 => Int64
  | .uint32 | .fixed32 | .float => UInt32
  | .uint64 | .fixed64 | .double => UInt64
  | .bool => Bool
  | .string => String
  | .bytes => List UInt8

def wireType : ScalarType → WireType
  | .int32 | .int64 | .uint32 | .uint64 | .sint32 | .sint64 | .bool | .enum => .varint
  | .fixed32 | .sfixed32 | .float => .fixed32
  | .fixed64 | .sfixed64 | .double => .fixed64
  | .string | .bytes => .lengthDelimited

def encode {ε : Type} (t : ScalarType) (field : UInt32) : t.Value → Outcome ε (List UInt8) :=
  match t with
  | .int32 => encodeInt32 field
  | .int64 => encodeInt64 field
  | .uint32 => encodeUint32 field
  | .uint64 => encodeUint64 field
  | .sint32 => encodeSint32 field
  | .sint64 => encodeSint64 field
  | .bool => encodeBool field
  | .enum => encodeEnum field
  | .fixed32 => encodeFixed32 field
  | .fixed64 => encodeFixed64 field
  | .sfixed32 => encodeSfixed32 field
  | .sfixed64 => encodeSfixed64 field
  | .float => encodeFloat field
  | .double => encodeDouble field
  | .string => encodeString field
  | .bytes => encodeBytes field

def read (t : ScalarType) : Reader → Result (t.Value × Reader) :=
  match t with
  | .int32 | .enum => Reader.readInt32
  | .int64 => Reader.readInt64
  | .uint32 => Reader.readUint32
  | .uint64 => Reader.readUint64
  | .sint32 => Reader.readSint32
  | .sint64 => Reader.readSint64
  | .bool => Reader.readBool
  | .fixed32 => Reader.readFixed32
  | .fixed64 => Reader.readFixed64
  | .sfixed32 => Reader.readSfixed32
  | .sfixed64 => Reader.readSfixed64
  | .float => Reader.readFloat
  | .double => Reader.readDouble
  | .string => Reader.readString
  | .bytes => Reader.readAs Slice.bytes Reader.readLengthDelimited

/-- What stands on the wire for a value. -/
def carry (t : ScalarType) : t.Value → UnknownValue :=
  match t with
  | .int32 | .enum => fun value => .varint (int32Word value)
  | .int64 => fun value => .varint (Int64.toUInt64 value)
  | .uint32 => fun value => .varint (UInt32.toUInt64 value)
  | .uint64 => .varint
  | .sint32 => fun value => .varint (encodeZigzag32 value).toUInt64
  | .sint64 => fun value => .varint (encodeZigzag64 value)
  | .bool => fun value => .varint (boolWord value)
  | .fixed32 | .float => .fixed32
  | .fixed64 | .double => .fixed64
  | .sfixed32 => fun value => .fixed32 (Int32.toUInt32 value)
  | .sfixed64 => fun value => .fixed64 (Int64.toUInt64 value)
  | .string => fun value => .lengthDelimited (asBytes value)
  | .bytes => .lengthDelimited

/-- A text is within the limit on strings. -/
def TextFits (t : ScalarType) (limits : DecoderLimits) : t.Value → Prop :=
  match t with
  | .string => fun value => DecoderLimits.within limits.maxStringLen (asBytes value).length = true
  | _ => fun _ => True

variable {t : ScalarType} {value : t.Value}

theorem carry_wireType (t : ScalarType) (value : t.Value) : (t.carry value).wireType = t.wireType := by
  cases t <;> rfl

/-- Every writer appends the tag of the field and what stands for the value. -/
theorem encode_eq {ε : Type} {field : UInt32} (nonzero : field ≠ 0) (value : t.Value) :
    t.encode (ε := ε) field value =
      .ok (Tag.encode ⟨field, t.wireType, nonzero⟩ ++ (t.carry value).bytes) := by
  cases t <;>
    simp only [encode, encodeInt32, encodeInt64, encodeUint32, encodeUint64, encodeSint32,
      encodeSint64, encodeBool, encodeEnum, encodeFixed32, encodeFixed64, encodeSfixed32,
      encodeSfixed64, encodeFloat, encodeDouble, encodeString, encodeBytes, encodeVarintField,
      writeTag_eq nonzero, Outcome.ok_bind] <;> rfl

private theorem read_word {r r' : Reader} {word : UInt64} (source : r.readVarint = .ok (word, r')) :
    readUnknownValue .varint r = .ok (.varint word, r') := by
  rw [readUnknownValue, source]
  rfl

private theorem read_word32 {r r' : Reader} {word : UInt32} (source : r.readFixed32 = .ok (word, r')) :
    readUnknownValue .fixed32 r = .ok (.fixed32 word, r') := by
  rw [readUnknownValue, source]
  rfl

private theorem read_word64 {r r' : Reader} {word : UInt64} (source : r.readFixed64 = .ok (word, r')) :
    readUnknownValue .fixed64 r = .ok (.fixed64 word, r') := by
  rw [readUnknownValue, source]
  rfl

private theorem read_body {r r' : Reader} {body : Slice} (source : r.readLengthDelimited = .ok (body, r')) :
    readUnknownValue .lengthDelimited r = .ok (.lengthDelimited body.bytes, r') := by
  rw [readUnknownValue, source]
  rfl

/-- Where the read of a type succeeds, a value of its wire type is read. -/
private theorem read_unknown {r r' : Reader} (read : t.read r = .ok (value, r')) :
    ∃ word, readUnknownValue t.wireType r = .ok (word, r') := by
  cases t with
  | int32 | int64 | uint32 | sint64 | enum =>
    obtain ⟨_, source, _⟩ := Reader.readAs_eq_ok.mp read
    exact ⟨_, read_word source⟩
  | sint32 =>
    have read : Reader.readSint32 r = .ok ((value : Int32), r') := read
    obtain ⟨_, source, _⟩ := Reader.readAs_eq_ok.mp read
    exact ⟨_, read_word source⟩
  | bool =>
    have read : Reader.readBool r = .ok ((value : Bool), r') := read
    obtain ⟨_, source, _⟩ := Reader.readAs_eq_ok.mp read
    exact ⟨_, read_word source⟩
  | uint64 => exact ⟨_, read_word read⟩
  | sfixed32 =>
    obtain ⟨_, source, _⟩ := Reader.readAs_eq_ok.mp read
    exact ⟨_, read_word32 source⟩
  | fixed32 | float => exact ⟨_, read_word32 read⟩
  | sfixed64 =>
    obtain ⟨_, source, _⟩ := Reader.readAs_eq_ok.mp read
    exact ⟨_, read_word64 source⟩
  | fixed64 | double => exact ⟨_, read_word64 read⟩
  | string =>
    obtain ⟨⟨body, next⟩, source, checked⟩ := Outcome.bind_eq_ok.mp read
    obtain ⟨_, _, decoded⟩ := Outcome.bind_eq_ok.mp checked
    obtain ⟨_, _, final⟩ := Outcome.bind_eq_ok.mp decoded
    cases final
    exact ⟨_, read_body source⟩
  | bytes =>
    obtain ⟨_, source, _⟩ := Reader.readAs_eq_ok.mp read
    exact ⟨_, read_body source⟩

private theorem word_read {r r' : Reader} {word : UInt64}
    (source : readUnknownValue .varint r = .ok (.varint word, r')) : r.readVarint = .ok (word, r') := by
  obtain ⟨⟨_, _⟩, read, same⟩ := Outcome.bind_eq_ok.mp source
  cases same
  exact read

private theorem word32_read {r r' : Reader} {word : UInt32}
    (source : readUnknownValue .fixed32 r = .ok (.fixed32 word, r')) : r.readFixed32 = .ok (word, r') := by
  obtain ⟨⟨_, _⟩, read, same⟩ := Outcome.bind_eq_ok.mp source
  cases same
  exact read

private theorem word64_read {r r' : Reader} {word : UInt64}
    (source : readUnknownValue .fixed64 r = .ok (.fixed64 word, r')) : r.readFixed64 = .ok (word, r') := by
  obtain ⟨⟨_, _⟩, read, same⟩ := Outcome.bind_eq_ok.mp source
  cases same
  exact read

private theorem body_read {r r' : Reader} {bytes : List UInt8}
    (source : readUnknownValue .lengthDelimited r = .ok (.lengthDelimited bytes, r')) :
    ∃ body : Slice, body.bytes = bytes ∧ r.readLengthDelimited = .ok (body, r') := by
  obtain ⟨⟨body, _⟩, read, same⟩ := Outcome.bind_eq_ok.mp source
  cases same
  exact ⟨body, rfl, read⟩

private theorem text_read_iff {r r' : Reader} {text : String}
    (source : readUnknownValue .lengthDelimited r = .ok (.lengthDelimited (asBytes text), r')) :
    r.readStringOwned = .ok (text, r') ↔
      DecoderLimits.within r'.limits.maxStringLen (asBytes text).length = true := by
  obtain ⟨body, same, read⟩ := body_read source
  simp only [Reader.readStringOwned, read, Outcome.ok_bind, same, fromUtf8_asBytes, Slice.length,
    Outcome.ofOption_some, Outcome.bind_eq_ok, DecoderLimits.checkString, DecoderLimits.check_eq_ok,
    exists_const, and_true]

/-- The read of a type takes what stands for a value back to it, if the limit on texts allows. -/
private theorem read_carry_iff {r r' : Reader}
    (source : readUnknownValue t.wireType r = .ok (t.carry value, r')) :
    t.read r = .ok (value, r') ↔ t.TextFits r'.limits value := by
  cases t with
  | int32 | enum =>
    exact iff_of_true (Reader.readAs_eq_ok.mpr ⟨_, word_read source, wordInt32_int32Word value⟩) trivial
  | int64 =>
    exact iff_of_true (Reader.readAs_eq_ok.mpr ⟨_, word_read source, Int64.toInt64_toUInt64 value⟩) trivial
  | uint32 =>
    exact iff_of_true (Reader.readAs_eq_ok.mpr ⟨_, word_read source, UInt32.toUInt32_toUInt64 value⟩) trivial
  | uint64 => exact iff_of_true (word_read source) trivial
  | sint32 =>
    have read : Reader.readSint32 r = .ok ((value : Int32), r') := by
      refine Reader.readAs_eq_ok.mpr ⟨_, word_read source, ?_⟩
      rw [UInt32.toUInt32_toUInt64]
      exact decodeZigzag32_encodeZigzag32 value
    exact iff_of_true read trivial
  | sint64 =>
    exact iff_of_true (Reader.readAs_eq_ok.mpr ⟨_, word_read source,
      decodeZigzag64_encodeZigzag64 value⟩) trivial
  | bool =>
    have read : Reader.readBool r = .ok ((value : Bool), r') := by
      refine Reader.readAs_eq_ok.mpr ⟨_, word_read source, ?_⟩
      cases value <;> rfl
    exact iff_of_true read trivial
  | fixed32 | float => exact iff_of_true (word32_read source) trivial
  | fixed64 | double => exact iff_of_true (word64_read source) trivial
  | sfixed32 =>
    exact iff_of_true (Reader.readAs_eq_ok.mpr ⟨_, word32_read source, Int32.toInt32_toUInt32 value⟩) trivial
  | sfixed64 =>
    exact iff_of_true (Reader.readAs_eq_ok.mpr ⟨_, word64_read source, Int64.toInt64_toUInt64 value⟩) trivial
  | string =>
    exact text_read_iff source
  | bytes =>
    obtain ⟨body, same, read⟩ := body_read source
    exact iff_of_true (Reader.readAs_eq_ok.mpr ⟨body, read, same⟩) trivial

end ScalarType

section Tagged

variable {r middle r' : Reader} {tag : Tag} {later : List UInt8}

/-- A written tag is read back within the budgets. -/
private theorem readTag_written (tracked : r.Tracked) (small : tag.fieldNumber.toNat < 2 ^ 29)
    (here : r.rest = tag.encode ++ later) :
    r.readTag = .ok (tag, middle) ↔
      DecoderLimits.within r.limits.maxBytes (r.bytesRead + tag.encode.length) = true ∧
        DecoderLimits.within r.limits.maxFields (r.fieldCount + 1) = true ∧
        Reader.Advanced r tag.encode.length 1 middle := by
  have written : WireVarint tag.encode (Tag.raw tag.fieldNumber tag.wireType) :=
    wireVarint_encodeVarint _
  have low := tag.wireType.asU8_lt
  rw [Reader.readTag_wire tracked]
  constructor
  · rintro ⟨bytes, rest, raw, split, wire, _, _, budget, fields, moved⟩
    obtain ⟨rfl, _, _⟩ := wire.unique written (split.symm.trans here)
    exact ⟨budget, fields, moved⟩
  · rintro ⟨budget, fields, moved⟩
    refine ⟨_, later, _, here, written, ?_, ?_, budget, fields, moved⟩
    · rw [Tag.raw_toNat]
      omega
    · rw [Tag.raw_toNat]
      omega

/-- Where the cursor stands once the tag is read. -/
private theorem after_tag (tracked : r.Tracked) (here : r.rest = tag.encode ++ later)
    (moved : Reader.Advanced r tag.encode.length 1 middle) :
    middle.Tracked ∧ middle.limits = r.limits ∧ middle.rest = later ∧
      middle.bytesRead = r.bytesRead + tag.encode.length := by
  have some : 0 < tag.encode.length := (encodeVarint_length_bounds _).1
  refine ⟨moved.tracked tracked some, moved.limits, ?_, ?_⟩
  · rw [moved.rest_eq, here, List.drop_left]
  · rw [moved.bytesRead, tracked.count_bytes (Reader.inside_of_rest here)]

/-- A value that stands at the cursor is read within the budgets, and no other value is. -/
private theorem readValue_written (tracked : r.Tracked) {value word : UnknownValue} {rest : List UInt8}
    (here : r.rest = value.bytes ++ rest) :
    readUnknownValue value.wireType r = .ok (word, r') ↔
      word = value ∧ value.Fits r.limits ∧
        DecoderLimits.within r.limits.maxBytes (r.bytesRead + value.bytes.length) = true ∧
        Reader.Advanced r value.bytes.length 0 r' := by
  have sized : value.Sized := by
    cases value with
    | lengthDelimited bytes =>
      have bound := r.buf.length_lt_usize
      have inside := Reader.inside_of_rest here
      simp only [UnknownValue.bytes, writeLengthDelimited, List.length_append] at inside
      simp only [UnknownValue.Sized]
      omega
    | _ => trivial
  have written := valueBytes_bytes sized
  rw [readUnknownValue_wire tracked]
  constructor
  · rintro ⟨bytes, _, split, kind, wire, fits, budget, moved⟩
    obtain ⟨rfl, rfl, _⟩ := wire.unique written kind (split.symm.trans here)
    exact ⟨rfl, fits, budget, moved⟩
  · rintro ⟨rfl, fits, budget, moved⟩
    exact ⟨_, rest, here, rfl, written, fits, budget, moved⟩

end Tagged

/-- Reading the tag and then the value gives the field back and moves past just its bytes. -/
def ReadsBack (t : ScalarType) (field : UInt32) (value : t.Value) (bytes : List UInt8)
    (r : Reader) : Prop :=
  ∃ tag middle r', r.readTag = .ok (tag, middle) ∧ tag.fieldNumber = field ∧
    tag.wireType = t.wireType ∧ t.read middle = .ok (value, r') ∧
    Reader.Advanced r bytes.length 1 r'

/-- The budgets of a reader have room for a field. -/
structure Reader.Admits (r : Reader) (t : ScalarType) (value : t.Value) (bytes : List UInt8) :
    Prop where
  bytes : DecoderLimits.within r.limits.maxBytes (r.bytesRead + bytes.length) = true
  fields : DecoderLimits.within r.limits.maxFields (r.fieldCount + 1) = true
  length : (t.carry value).Fits r.limits
  text : t.TextFits r.limits value

/-- A reader without limits has room for every field. -/
theorem Reader.admits_unlimited (buf : Slice) (t : ScalarType) (value : t.Value) (bytes : List UInt8) :
    (Reader.withLimits buf .unlimited).Admits t value bytes := by
  refine ⟨rfl, rfl, ?_, ?_⟩
  · cases t.carry value <;> trivial
  · cases t <;> trivial

private theorem readsBack_iff {r : Reader} (tracked : r.Tracked) {t : ScalarType} {tag : Tag}
    (small : tag.fieldNumber.toNat < 2 ^ 29) (kind : tag.wireType = t.wireType) (value : t.Value)
    {rest : List UInt8} (here : r.rest = (tag.encode ++ (t.carry value).bytes) ++ rest) :
    ReadsBack t tag.fieldNumber value (tag.encode ++ (t.carry value).bytes) r ↔
      r.Admits t value (tag.encode ++ (t.carry value).bytes) := by
  have split := here
  rw [List.append_assoc] at split
  have inside := Reader.inside_of_rest here
  rw [List.length_append] at inside
  have sameKind := t.carry_wireType value
  constructor
  · rintro ⟨tag', middle, r', readTag, number, kind', readValue, _⟩
    obtain rfl : tag' = tag := Tag.ext number (kind'.trans kind.symm)
    obtain ⟨_, fields, moved⟩ := (readTag_written tracked small split).mp readTag
    obtain ⟨trackedHere, limits, there, read⟩ := after_tag tracked split moved
    obtain ⟨word, source⟩ := t.read_unknown readValue
    rw [← sameKind] at source
    obtain ⟨rfl, fits, budget, moved'⟩ := (readValue_written trackedHere there).mp source
    rw [sameKind] at source
    rw [limits, read, Nat.add_assoc, ← List.length_append] at budget
    have text := (t.read_carry_iff source).mp readValue
    rw [moved'.limits, limits] at text
    exact ⟨budget, fields, limits ▸ fits, text⟩
  · rintro ⟨budget, fields, fits, text⟩
    rw [List.length_append, ← Nat.add_assoc] at budget
    obtain ⟨middle, moved⟩ := Reader.exists_advanced r tag.encode.length 1 (by omega)
    obtain ⟨trackedHere, limits, there, read⟩ := after_tag tracked split moved
    obtain ⟨r', moved'⟩ := Reader.exists_advanced middle (t.carry value).bytes.length 0 (by
      rw [moved.buf, moved.pos]
      omega)
    have source := (readValue_written trackedHere there).mpr ⟨rfl, limits ▸ fits, by rwa [limits, read], moved'⟩
    rw [sameKind] at source
    refine ⟨tag, middle, r', (readTag_written tracked small split).mpr
      ⟨DecoderLimits.within_mono (by omega) budget, fields, moved⟩, rfl, kind,
      (t.read_carry_iff source).mpr (by rwa [moved'.limits, limits]), ?_⟩
    rw [List.length_append]
    exact moved.trans moved'

/-- Every field of a scalar type is written, and read back exactly when the budgets of the
reader have room for it; without limits they always have. -/
theorem scalar_readBack (t : ScalarType) (field : UInt32) (low : 1 ≤ field.toNat)
    (high : field.toNat ≤ 536870911) (value : t.Value) :
    ∃ bytes, t.encode (ε := Error) field value = .ok bytes ∧
      (∀ (r : Reader) (rest : List UInt8), r.Tracked → r.rest = bytes ++ rest →
        (ReadsBack t field value bytes r ↔ r.Admits t value bytes)) ∧
      ∀ (buf : Slice) (rest : List UInt8), buf.bytes = bytes ++ rest →
        ReadsBack t field value bytes (Reader.withLimits buf .unlimited) := by
  have nonzero : field ≠ 0 := by
    rintro rfl
    exact absurd low (by decide)
  have whole := fun (r : Reader) (rest : List UInt8) (tracked : r.Tracked) =>
    @readsBack_iff r tracked t ⟨field, t.wireType, nonzero⟩
      (Nat.lt_of_le_of_lt high (by decide)) rfl value rest
  refine ⟨_, ScalarType.encode_eq nonzero value, fun r rest tracked => whole r rest tracked,
    fun buf rest here => ?_⟩
  exact (whole _ rest (Reader.withLimits_tracked _ _) here).mpr (Reader.admits_unlimited _ _ _ _)

/-- A negative enum value takes ten bytes. -/
theorem scalar_readBack_enum :
    (1 ≤ (536870911 : UInt32).toNat ∧ (536870911 : UInt32).toNat ≤ 536870911) ∧
      ∃ bytes, encodeEnum (ε := Error) 536870911 (-1) = .ok bytes ∧
      (∀ (r : Reader) (rest : List UInt8), r.Tracked → r.rest = bytes ++ rest →
        (ReadsBack .enum 536870911 (-1 : Int32) bytes r ↔ r.Admits .enum (-1 : Int32) bytes)) ∧
      ∀ (buf : Slice) (rest : List UInt8), buf.bytes = bytes ++ rest →
        ReadsBack .enum 536870911 (-1 : Int32) bytes (Reader.withLimits buf .unlimited) :=
  ⟨by decide, scalar_readBack .enum 536870911 (by decide) (by decide) (-1 : Int32)⟩

end TptProto.Core
