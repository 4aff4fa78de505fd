import TptProto.Core.Frame

/-! Reading frames off a cursor whose counters have not run ahead of its position. -/

namespace TptProto.Core

open TptProto.Foundation

/-- No more bytes and tags counted than positions passed; then no counter wraps. -/
structure Reader.Tracked (r : Reader) : Prop where
  bytes : r.bytesRead ≤ r.pos
  fields : r.fieldCount ≤ r.pos

/-- A length-delimited value respects the per-value cap. -/
def UnknownValue.Fits (limits : DecoderLimits) : UnknownValue → Prop
  | .lengthDelimited bytes => DecoderLimits.within limits.maxLengthDelimited bytes.length = true
  | _ => True

namespace Reader

theorem withLimits_tracked (buf : Slice) (limits : DecoderLimits) :
    (withLimits buf limits).Tracked := ⟨Nat.le_refl _, Nat.le_refl _⟩

theorem child_tracked (r : Reader) (buf : Slice) : (r.child buf).Tracked :=
  ⟨Nat.le_refl _, Nat.le_refl _⟩

variable {r r' : Reader}

theorem Tracked.count_bytes (tracked : r.Tracked) {n : Nat} (inside : r.pos + n ≤ r.buf.length) :
    usizeAdd r.bytesRead n = r.bytesRead + n := by
  have bound := r.buf.length_lt_usize
  have := tracked.bytes
  exact usizeAdd_of_lt (by omega)

theorem Tracked.count_field (tracked : r.Tracked) :
    usizeAdd r.fieldCount 1 = r.fieldCount + 1 := by
  have bound := r.pos_lt
  have := tracked.fields
  exact usizeAdd_of_lt (by omega)

theorem Advanced.tracked {n tags : Nat} (moved : Advanced r n tags r') (tracked : r.Tracked)
    (covered : tags ≤ n) : r'.Tracked := by
  constructor
  · rw [moved.bytesRead, moved.pos]
    exact Nat.le_trans (usizeAdd_le _ _) (Nat.add_le_add_right tracked.bytes n)
  · rw [moved.fieldCount, moved.pos]
    have := tracked.fields
    split
    · omega
    · exact Nat.le_trans (usizeAdd_le _ _) (by omega)

/-- An `Advanced` reader exists for every move inside the buffer. -/
theorem exists_advanced (r : Reader) (n tags : Nat) (inside : r.pos + n ≤ r.buf.length) :
    ∃ r', Advanced r n tags r' :=
  ⟨{ r with
      pos := r.pos + n
      fieldCount := if tags = 0 then r.fieldCount else usizeAdd r.fieldCount tags
      bytesRead := usizeAdd r.bytesRead n
      pos_le := inside }, rfl, rfl, rfl, rfl, rfl, rfl⟩

theorem inside_of_rest {bytes rest : List UInt8} (here : r.rest = bytes ++ rest) :
    r.pos + bytes.length ≤ r.buf.length := by
  have total := congrArg List.length here
  rw [rest_length, List.length_append, remaining] at total
  have := r.pos_le
  omega

theorem readVarint_wire (tracked : r.Tracked) {value : UInt64} :
    r.readVarint = .ok (value, r') ↔
      ∃ bytes rest, r.rest = bytes ++ rest ∧ WireVarint bytes value ∧
        DecoderLimits.within r.limits.maxBytes (r.bytesRead + bytes.length) = true ∧
        Advanced r bytes.length 0 r' := by
  simp only [readVarint_eq_ok_iff, decodeVarint_eq_ok]
  constructor
  · rintro ⟨_, ⟨header, rest, split, wire, rfl⟩, budget, moved⟩
    rw [tracked.count_bytes moved.inside] at budget
    exact ⟨header, rest, split, wire, budget, moved⟩
  · rintro ⟨header, rest, split, wire, budget, moved⟩
    rw [← tracked.count_bytes moved.inside] at budget
    exact ⟨_, ⟨header, rest, split, wire, rfl⟩, budget, moved⟩

theorem readTag_wire (tracked : r.Tracked) {tag : Tag} :
    r.readTag = .ok (tag, r') ↔
      ∃ bytes rest raw, r.rest = bytes ++ rest ∧ WireVarint bytes raw ∧
        tag.fieldNumber.toNat = raw.toNat / 8 % 2 ^ 32 ∧
        tag.wireType.asU8.toNat = raw.toNat % 8 ∧
        DecoderLimits.within r.limits.maxBytes (r.bytesRead + bytes.length) = true ∧
        DecoderLimits.within r.limits.maxFields (r.fieldCount + 1) = true ∧
        Advanced r bytes.length 1 r' := by
  simp only [readTag_eq_ok_iff, Tag.decode_eq_ok_iff, decodeVarint_eq_ok, tracked.count_field]
  constructor
  · rintro ⟨_, ⟨raw, ⟨header, rest, split, wire, rfl⟩, number, kind⟩, budget, fields, moved⟩
    rw [tracked.count_bytes moved.inside] at budget
    exact ⟨header, rest, raw, split, wire, number, kind, budget, fields, moved⟩
  · rintro ⟨header, rest, raw, split, wire, number, kind, budget, fields, moved⟩
    rw [← tracked.count_bytes moved.inside] at budget
    exact ⟨_, ⟨raw, ⟨header, rest, split, wire, rfl⟩, number, kind⟩, budget, fields, moved⟩

theorem readLengthDelimited_wire (tracked : r.Tracked) {body : Slice} :
    r.readLengthDelimited = .ok (body, r') ↔
      ∃ bytes rest, r.rest = bytes ++ rest ∧ ValueBytes (.lengthDelimited body.bytes) bytes ∧
        DecoderLimits.within r.limits.maxLengthDelimited body.length = true ∧
        DecoderLimits.within r.limits.maxBytes (r.bytesRead + bytes.length) = true ∧
        Advanced r bytes.length 0 r' := by
  simp only [readLengthDelimited_eq_ok_iff, decodeVarint_eq_ok]
  constructor
  · rintro ⟨len, _, ⟨header, rest, split, wire, rfl⟩, _, short, inside, same, budget, moved⟩
    have dropped : r.rest.drop header.length = rest := by
      rw [Reader.rest, split, List.drop_left]
    have total := congrArg List.length split
    rw [List.length_drop, List.length_append] at total
    have width : body.bytes.length = len.toNat := by
      rw [same, dropped, List.length_take]
      have : r.buf.length = r.buf.bytes.length := rfl
      omega
    have whole : (header ++ body.bytes).length = header.length + len.toNat := by
      rw [List.length_append, width]
    refine ⟨header ++ body.bytes, rest.drop len.toNat, ?_, .lengthDelimited wire width, ?_, ?_, ?_⟩
    · rw [List.append_assoc, same, dropped, List.take_append_drop]
      exact split
    · rwa [Slice.length, width]
    · rw [whole, ← tracked.count_bytes inside]
      exact budget
    · rw [whole]
      exact moved
  · rintro ⟨_, rest, split, value, short, budget, moved⟩
    cases value with
    | @lengthDelimited len header payload wire width =>
      have inside := inside_of_rest split
      rw [List.length_append, width] at inside budget moved
      refine ⟨len, header.length, ⟨header, body.bytes ++ rest, ?_, wire, rfl⟩, ?_, ?_, inside, ?_,
        ?_, moved⟩
      · rw [← List.append_assoc]
        exact split
      · rw [tracked.count_bytes (by omega)]
        exact DecoderLimits.within_mono (by omega) budget
      · rwa [← width]
      · rw [split, List.append_assoc, List.drop_left, ← width, List.take_left]
      · rwa [tracked.count_bytes inside]

theorem readFixed32_wire (tracked : r.Tracked) {value : UInt32} :
    r.readFixed32 = .ok (value, r') ↔
      ∃ bytes rest, r.rest = bytes ++ rest ∧ ValueBytes (.fixed32 value) bytes ∧
        DecoderLimits.within r.limits.maxBytes (r.bytesRead + bytes.length) = true ∧
        Advanced r bytes.length 0 r' := by
  rw [readFixed32_eq_ok_iff]
  constructor
  · rintro ⟨inside, rfl, budget, moved⟩
    have width : (r.rest.take 4).length = 4 := by
      rw [List.length_take, rest_length, remaining]
      omega
    refine ⟨r.rest.take 4, r.rest.drop 4, (List.take_append_drop 4 _).symm, .fixed32 width, ?_, ?_⟩
    · rwa [width, ← tracked.count_bytes inside]
    · rwa [width]
  · rintro ⟨bytes, rest, split, value, budget, moved⟩
    cases value with
    | fixed32 width =>
      have inside := inside_of_rest split
      rw [width] at inside budget moved
      refine ⟨inside, ?_, by rwa [tracked.count_bytes inside], moved⟩
      rw [split, ← width, List.take_left]

theorem readFixed64_wire (tracked : r.Tracked) {value : UInt64} :
    r.readFixed64 = .ok (value, r') ↔
      ∃ bytes rest, r.rest = bytes ++ rest ∧ ValueBytes (.fixed64 value) bytes ∧
        DecoderLimits.within r.limits.maxBytes (r.bytesRead + bytes.length) = true ∧
        Advanced r bytes.length 0 r' := by
  rw [readFixed64_eq_ok_iff]
  constructor
  · rintro ⟨inside, rfl, budget, moved⟩
    have width : (r.rest.take 8).length = 8 := by
      rw [List.length_take, rest_length, remaining]
      omega
    refine ⟨r.rest.take 8, r.rest.drop 8, (List.take_append_drop 8 _).symm, .fixed64 width, ?_, ?_⟩
    · rwa [width, ← tracked.count_bytes inside]
    · rwa [width]
  · rintro ⟨bytes, rest, split, value, budget, moved⟩
    cases value with
    | fixed64 width =>
      have inside := inside_of_rest split
      rw [width] at inside budget moved
      refine ⟨inside, ?_, by rwa [tracked.count_bytes inside], moved⟩
      rw [split, ← width, List.take_left]

end Reader

/-- Reading a value is reading the bytes its wire type delimits, within the budgets. -/
theorem readUnknownValue_wire {r r' : Reader} (tracked : r.Tracked) {wireType : WireType}
    {value : UnknownValue} :
    readUnknownValue wireType r = .ok (value, r') ↔
      ∃ bytes rest, r.rest = bytes ++ rest ∧ value.wireType = wireType ∧ ValueBytes value bytes ∧
        value.Fits r.limits ∧
        DecoderLimits.within r.limits.maxBytes (r.bytesRead + bytes.length) = true ∧
        Reader.Advanced r bytes.length 0 r' := by
  cases wireType with
  | varint =>
    simp only [readUnknownValue, Outcome.bind_eq_ok, Prod.exists, Outcome.ok.injEq, Prod.mk.injEq,
      Reader.readVarint_wire tracked]
    constructor
    · rintro ⟨value, _, ⟨bytes, rest, split, wire, budget, moved⟩, rfl, rfl⟩
      exact ⟨bytes, rest, split, rfl, .varint wire, trivial, budget, moved⟩
    · rintro ⟨bytes, rest, split, kind, wire, _, budget, moved⟩
      cases wire <;> cases kind
      exact ⟨_, r', ⟨bytes, rest, split, ‹_›, budget, moved⟩, rfl, rfl⟩
  | fixed32 =>
    simp only [readUnknownValue, Outcome.bind_eq_ok, Prod.exists, Outcome.ok.injEq, Prod.mk.injEq,
      Reader.readFixed32_wire tracked]
    constructor
    · rintro ⟨value, _, ⟨bytes, rest, split, wire, budget, moved⟩, rfl, rfl⟩
      exact ⟨bytes, rest, split, rfl, wire, trivial, budget, moved⟩
    · rintro ⟨bytes, rest, split, kind, wire, _, budget, moved⟩
      cases value <;> cases kind
      exact ⟨_, r', ⟨bytes, rest, split, wire, budget, moved⟩, rfl, rfl⟩
  | fixed64 =>
    simp only [readUnknownValue, Outcome.bind_eq_ok, Prod.exists, Outcome.ok.injEq, Prod.mk.injEq,
      Reader.readFixed64_wire tracked]
    constructor
    · rintro ⟨value, _, ⟨bytes, rest, split, wire, budget, moved⟩, rfl, rfl⟩
      exact ⟨bytes, rest, split, rfl, wire, trivial, budget, moved⟩
    · rintro ⟨bytes, rest, split, kind, wire, _, budget, moved⟩
      cases value <;> cases kind
      exact ⟨_, r', ⟨bytes, rest, split, wire, budget, moved⟩, rfl, rfl⟩
  | lengthDelimited =>
    simp only [readUnknownValue, Outcome.bind_eq_ok, Prod.exists, Outcome.ok.injEq, Prod.mk.injEq,
      Reader.readLengthDelimited_wire tracked]
    constructor
    · rintro ⟨body, _, ⟨bytes, rest, split, wire, short, budget, moved⟩, rfl, rfl⟩
      exact ⟨bytes, rest, split, rfl, wire, short, budget, moved⟩
    · rintro ⟨bytes, rest, split, kind, wire, short, budget, moved⟩
      cases value with
      | lengthDelimited payload =>
        have inside := Reader.inside_of_rest split
        have long : payload.length ≤ bytes.length := by
          cases wire
          simp
        have bound := r.buf.length_lt
        have : r.buf.length = r.buf.bytes.length := rfl
        exact ⟨⟨payload, by omega⟩, r', ⟨bytes, rest, split, wire, short, budget, moved⟩, rfl, rfl⟩
      | _ => cases kind
  | startGroup | endGroup =>
    simp only [readUnknownValue, reduceCtorEq, false_iff]
    rintro ⟨_, _, _, kind, _⟩
    cases value <;> cases kind


end TptProto.Core
