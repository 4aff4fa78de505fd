import TptProto.Core.Chunks
import TptProto.Core.Unknown
import TptProto.Core.Packed

/-! Decode loops that read a tag, read a value of a wire type chosen from the tag,
and fold the two into a result. What such a loop accepts is a list of items. -/

namespace TptProto.Core

open TptProto.Foundation

/-- A tag and the value read after it. -/
structure Item where
  tag : Tag
  value : UnknownValue
  deriving DecidableEq

/-- The wire form of an item whose value is read with the wire type chosen for its tag. -/
def Item.Bytes (wireOf : Tag → WireType) (item : Item) (bytes : List UInt8) : Prop :=
  ∃ tagBytes raw valueBytes, bytes = tagBytes ++ valueBytes ∧ WireVarint tagBytes raw ∧
    item.tag.fieldNumber.toNat = raw.toNat / 8 % 2 ^ 32 ∧
    item.tag.wireType.asU8.toNat = raw.toNat % 8 ∧
    item.value.wireType = wireOf item.tag ∧ ValueBytes item.value valueBytes

abbrev Items (wireOf : Tag → WireType) : List Item → List UInt8 → Prop :=
  Sequence (Item.Bytes wireOf)

variable {ε σ : Type} {lift : Error → ε} {wireOf : Tag → WireType}
  {apply : DecoderLimits → UInt32 → σ → Item → Outcome ε σ}

/-- One pass: a tag, a value, and their effect under the cursor's limits and depth. -/
def fieldStep (lift : Error → ε) (wireOf : Tag → WireType)
    (apply : DecoderLimits → UInt32 → σ → Item → Outcome ε σ) (state : σ × Reader) :
    Outcome ε (σ × Reader) := do
  let (tag, r) ← state.2.readTag.mapErr lift
  let (value, r) ← (readUnknownValue (wireOf tag) r).mapErr lift
  let next ← apply r.limits r.depth state.1 ⟨tag, value⟩
  .ok (next, r)

theorem readUnknownValue_kept {wireType : WireType} {r r' : Reader} {value : UnknownValue}
    (read : readUnknownValue wireType r = .ok (value, r')) : Reader.Kept r r' := by
  cases wireType with
  | varint =>
    simp only [readUnknownValue, Outcome.bind_eq_ok, Prod.exists, Outcome.ok.injEq, Prod.mk.injEq] at read
    obtain ⟨_, _, source, _, rfl⟩ := read
    exact Reader.readVarint_kept source
  | fixed32 =>
    simp only [readUnknownValue, Outcome.bind_eq_ok, Prod.exists, Outcome.ok.injEq, Prod.mk.injEq] at read
    obtain ⟨_, _, source, _, rfl⟩ := read
    exact Reader.readFixed32_kept source
  | fixed64 =>
    simp only [readUnknownValue, Outcome.bind_eq_ok, Prod.exists, Outcome.ok.injEq, Prod.mk.injEq] at read
    obtain ⟨_, _, source, _, rfl⟩ := read
    exact Reader.readFixed64_kept source
  | lengthDelimited =>
    simp only [readUnknownValue, Outcome.bind_eq_ok, Prod.exists, Outcome.ok.injEq, Prod.mk.injEq] at read
    obtain ⟨_, _, source, _, rfl⟩ := read
    exact Reader.readLengthDelimited_kept source
  | startGroup | endGroup => cases read

/-- A value that can be read can be skipped. -/
theorem skipInner_of_read {wireType : WireType} {r r' : Reader} {value : UnknownValue}
    (read : readUnknownValue wireType r = .ok (value, r')) (fuel : Nat) (depth : UInt32) :
    Reader.skipInner fuel wireType depth r = .ok r' := by
  cases wireType with
  | varint | fixed32 | fixed64 =>
    simp only [readUnknownValue, Outcome.bind_eq_ok, Prod.exists, Outcome.ok.injEq, Prod.mk.injEq] at read
    obtain ⟨_, _, source, _, rfl⟩ := read
    simp only [Reader.skipInner, source, Outcome.ok_bind]
  | lengthDelimited =>
    simp only [readUnknownValue, Reader.readLengthDelimited, Outcome.bind_eq_ok, Prod.exists,
      Outcome.ok.injEq, Prod.mk.injEq] at read
    obtain ⟨body, _, ⟨len, next, source, _, admitted, inside⟩, _, rfl⟩ := read
    split at inside
    · cases inside
    · simp only [Outcome.bind_eq_ok, Outcome.ok.injEq, Prod.mk.injEq] at inside
      obtain ⟨_, _, _, moved, _, rfl⟩ := inside
      simp only [Reader.skipInner, source, Outcome.ok_bind, admitted, moved]
  | startGroup | endGroup => cases read

/-- A value's body is shorter than the buffer it lies in, unless there is none. -/
theorem readUnknownValue_shorter {wireType : WireType} {r r' : Reader} {value : UnknownValue}
    (read : readUnknownValue wireType r = .ok (value, r')) (filled : 0 < r.buf.length) :
    value.payload.length < r.buf.length := by
  cases wireType with
  | varint | fixed32 | fixed64 =>
    simp only [readUnknownValue, Outcome.bind_eq_ok, Prod.exists, Outcome.ok.injEq, Prod.mk.injEq] at read
    obtain ⟨_, _, _, rfl, _⟩ := read
    simpa [UnknownValue.payload] using filled
  | lengthDelimited =>
    simp only [readUnknownValue, Outcome.bind_eq_ok, Prod.exists, Outcome.ok.injEq, Prod.mk.injEq] at read
    obtain ⟨body, _, source, rfl, _⟩ := read
    exact Reader.readLengthDelimited_shorter source
  | startGroup | endGroup => cases read

theorem fieldStep_kept {state next : σ × Reader}
    (moved : fieldStep lift wireOf apply state = .ok next) : Reader.Kept state.2 next.2 := by
  simp only [fieldStep, Outcome.bind_eq_ok, Prod.exists, Outcome.mapErr_eq_ok, Outcome.ok.injEq]
    at moved
  obtain ⟨_, _, readTag, _, _, readValue, _, _, rfl⟩ := moved
  exact (Reader.readTag_kept readTag).trans (readUnknownValue_kept readValue)

/-- A pass depends only on the effects of items with bodies shorter than the buffer. -/
theorem fieldStep_congr {apply' : DecoderLimits → UInt32 → σ → Item → Outcome ε σ}
    {state : σ × Reader}
    (same : ∀ item : Item, item.value.payload.length < state.2.buf.length →
      apply state.2.limits state.2.depth state.1 item =
        apply' state.2.limits state.2.depth state.1 item) :
    fieldStep lift wireOf apply state = fieldStep lift wireOf apply' state := by
  simp only [fieldStep]
  refine Outcome.bind_congr fun pair readTag => ?_
  obtain ⟨tag, r⟩ := pair
  refine Outcome.bind_congr fun pair readValue => ?_
  obtain ⟨value, r'⟩ := pair
  rw [Outcome.mapErr_eq_ok] at readTag readValue
  have kept := Reader.readTag_kept readTag
  have kept' := kept.trans (readUnknownValue_kept readValue)
  have filled := Reader.readTag_filled readTag
  have shorter := readUnknownValue_shorter readValue (by rwa [kept.buf])
  rw [kept.buf] at shorter
  simp only [kept'.limits, kept'.depth, same ⟨tag, value⟩ shorter]

theorem Item.Bytes.length_pos {item : Item} {bytes : List UInt8}
    (wire : item.Bytes wireOf bytes) : 0 < bytes.length := by
  obtain ⟨_, _, _, rfl, tag, _⟩ := wire
  have := tag.length_pos
  simp only [List.length_append]
  omega

theorem Item.Bytes.unique {item item' : Item} {bytes bytes' rest rest' : List UInt8}
    (first : item.Bytes wireOf bytes) (second : item'.Bytes wireOf bytes')
    (same : bytes ++ rest = bytes' ++ rest') :
    item = item' ∧ bytes = bytes' ∧ rest = rest' := by
  obtain ⟨tagBytes, raw, valueBytes, rfl, tag, number, kind, wire, value⟩ := first
  obtain ⟨tagBytes', raw', valueBytes', rfl, tag', number', kind', wire', value'⟩ := second
  rw [List.append_assoc, List.append_assoc] at same
  obtain ⟨rfl, rfl, tails⟩ := tag.unique tag' same
  have sameTag : item.tag = item'.tag :=
    Tag.ext (UInt32.toNat_inj.mp (number.trans number'.symm)) (asU8_inj (kind.trans kind'.symm))
  obtain ⟨sameValue, rfl, rfl⟩ := value.unique value' (by rw [wire, wire', sameTag]) tails
  cases item
  cases item'
  simp_all

theorem item_delimited (wireOf : Tag → WireType) : Delimited (Item.Bytes wireOf) :=
  ⟨Item.Bytes.length_pos, Item.Bytes.unique⟩

theorem Item.Bytes.rewire {wireOf wireOf' : Tag → WireType} {item : Item} {bytes : List UInt8}
    (wire : item.Bytes wireOf bytes) (same : wireOf item.tag = wireOf' item.tag) :
    item.Bytes wireOf' bytes := by
  obtain ⟨tagBytes, raw, valueBytes, rfl, tag, number, kind, sameKind, value⟩ := wire
  exact ⟨tagBytes, raw, valueBytes, rfl, tag, number, kind, sameKind.trans same, value⟩

/-- Only the wire types of the tags that occur matter. -/
theorem Items.rewire {wireOf wireOf' : Tag → WireType} {items : List Item} {bytes : List UInt8}
    (wire : Items wireOf items bytes) (same : ∀ item ∈ items, wireOf item.tag = wireOf' item.tag) :
    Items wireOf' items bytes := by
  induction wire with
  | nil => exact .nil
  | cons head _ ih =>
    exact .cons (head.rewire (same _ List.mem_cons_self))
      (ih fun other member => same other (List.mem_cons_of_mem _ member))

theorem items_kind {items : List Item} {body : List UInt8}
    (wire : Items Tag.wireType items body) : ∀ item ∈ items, item.value.wireType = item.tag.wireType :=
  Sequence.forall wire fun _ _ chunk => by
    obtain ⟨_, _, _, _, _, _, _, kind, _⟩ := chunk
    exact kind

/-- One pass reads exactly one item. -/
theorem fieldStep_eq_ok_iff {state state' : σ} {r r' : Reader} (solvent : r.Solvent) :
    fieldStep lift wireOf apply (state, r) = .ok (state', r') ↔
      ∃ (item : Item) (bytes rest : List UInt8), r.rest = bytes ++ rest ∧
        item.Bytes wireOf bytes ∧ item.value.Fits r.limits ∧
        apply r.limits r.depth state item = .ok state' ∧
        Reader.Advanced r bytes.length 1 r' ∧ r'.Solvent := by
  have tracked := solvent.tracked
  simp only [fieldStep, Outcome.bind_eq_ok, Prod.exists, Outcome.mapErr_eq_ok, Outcome.ok.injEq,
    Prod.mk.injEq]
  constructor
  · rintro ⟨tag, r₁, readTag, value, r₂, readValue, next, applied, rfl, rfl⟩
    obtain ⟨tagBytes, rest₁, raw, split₁, wire, number, kind, _, fields, moved₁⟩ :=
      (Reader.readTag_wire tracked).mp readTag
    have tracked₁ := moved₁.tracked tracked wire.length_pos
    obtain ⟨valueBytes, rest, split₂, sameKind, valueOk, fits, budget, moved₂⟩ :=
      (readUnknownValue_wire tracked₁).mp readValue
    have moved : Reader.Advanced r (tagBytes ++ valueBytes).length 1 r₂ := by
      rw [List.length_append]
      exact moved₁.trans moved₂
    have covered : 1 ≤ (tagBytes ++ valueBytes).length := by
      have := wire.length_pos
      simp only [List.length_append]
      omega
    rw [moved.limits, moved.depth] at applied
    refine ⟨⟨tag, value⟩, tagBytes ++ valueBytes, rest, ?_,
      ⟨tagBytes, raw, valueBytes, rfl, wire, number, kind, sameKind, valueOk⟩, ?_, applied, moved,
      moved.tracked tracked covered, ?_, ?_⟩
    · rw [split₁, List.append_assoc, ← split₂, moved₁.rest_eq, split₁, List.drop_left]
    · rwa [moved₁.limits] at fits
    · rw [moved₂.bytesRead, tracked₁.count_bytes moved₂.inside, moved₂.limits]
      exact budget
    · rw [moved.fieldCount, if_neg (by omega), tracked.count_field, moved.limits]
      exact fields
  · rintro ⟨⟨tag, value⟩, _, rest, split,
      ⟨tagBytes, raw, valueBytes, rfl, wire, number, kind, sameKind, valueOk⟩, fits, applied, moved,
      solvent'⟩
    have inside := Reader.inside_of_rest split
    have bytesBudget := solvent'.bytes
    have fieldsBudget := solvent'.fields
    rw [moved.bytesRead, tracked.count_bytes inside, moved.limits, List.length_append] at bytesBudget
    rw [moved.fieldCount, if_neg (by omega), tracked.count_field, moved.limits] at fieldsBudget
    rw [List.length_append] at inside moved
    obtain ⟨r₁, moved₁⟩ := r.exists_advanced tagBytes.length 1 (by omega)
    have tracked₁ := moved₁.tracked tracked wire.length_pos
    rw [List.append_assoc] at split
    have readTag : r.readTag = .ok (tag, r₁) := (Reader.readTag_wire tracked).mpr
      ⟨tagBytes, valueBytes ++ rest, raw, split, wire, number, kind,
        DecoderLimits.within_mono (by omega) bytesBudget, fieldsBudget, moved₁⟩
    have moved₂ : Reader.Advanced r₁ valueBytes.length 0 r' :=
      ⟨by rw [moved.buf, moved₁.buf], by rw [moved.pos, moved₁.pos, Nat.add_assoc],
        by rw [moved.depth, moved₁.depth],
        by rw [moved.fieldCount, moved₁.fieldCount]; rfl,
        by rw [moved.limits, moved₁.limits],
        by rw [moved.bytesRead, moved₁.bytesRead, Reader.usizeAdd_assoc]⟩
    have readValue : readUnknownValue (wireOf tag) r₁ = .ok (value, r') :=
      (readUnknownValue_wire tracked₁).mpr
        ⟨valueBytes, rest, by rw [moved₁.rest_eq, split, List.drop_left], sameKind, valueOk,
          by rwa [moved₁.limits], by
            rw [moved₁.limits, moved₁.bytesRead, tracked.count_bytes (by omega), Nat.add_assoc]
            exact bytesBudget, moved₂⟩
    exact ⟨tag, r₁, readTag, value, r', readValue, state', by rwa [moved.limits, moved.depth], rfl,
      rfl⟩

theorem fieldStep_chunked : Chunked (Item.Bytes wireOf) (fun limits item => item.value.Fits limits) 1
    apply (fieldStep lift wireOf apply) where
  delimited := item_delimited wireOf
  few := Nat.le_refl _
  step_iff := fieldStep_eq_ok_iff

/-- The budgets that reading a list of items from a cursor must meet. -/
abbrev Affords (r : Reader) (items : List Item) : Prop :=
  Affordable (fun limits (item : Item) => item.value.Fits limits) 1 r items

variable (lift) in
/-- The loop succeeds exactly on affordable items whose effects succeed in turn. -/
theorem drain_fieldStep_eq_ok_iff {state final : σ} {r : Reader} (solvent : r.Solvent) :
    (∃ r', r.drain (fieldStep lift wireOf apply) state = .ok (final, r')) ↔
      ∃ items : List Item, Items wireOf items r.rest ∧ Affords r items ∧
        items.foldlM (apply r.limits r.depth) state = .ok final :=
  fieldStep_chunked.drain_eq_ok_iff solvent

end TptProto.Core

/-! What the writers produce is read back: written items are items. -/

namespace TptProto.Core

open TptProto.Foundation

/-- The bytes a tag and a value are written as. -/
def Item.written (item : Item) : List UInt8 := item.tag.encode ++ item.value.bytes

/-- An item whose written form is read back with the wire type chosen for its tag. -/
structure Item.Writable (wireOf : Tag → WireType) (item : Item) : Prop where
  small : item.tag.fieldNumber.toNat < 2 ^ 29
  kind : item.value.wireType = wireOf item.tag
  sized : item.value.Sized

theorem Item.Writable.bytes {wireOf : Tag → WireType} {item : Item} (writable : item.Writable wireOf) :
    item.Bytes wireOf item.written := by
  have low := item.tag.wireType.asU8_lt
  have small := writable.small
  refine ⟨item.tag.encode, Tag.raw item.tag.fieldNumber item.tag.wireType, item.value.bytes, rfl,
    wireVarint_encodeVarint _, ?_, ?_, writable.kind, valueBytes_bytes writable.sized⟩
  · rw [Tag.raw_toNat]
    omega
  · rw [Tag.raw_toNat]
    omega

theorem items_written {wireOf : Tag → WireType} {items : List Item}
    (writable : ∀ item ∈ items, item.Writable wireOf) :
    Items wireOf items (items.flatMap Item.written) := by
  induction items with
  | nil => exact .nil
  | cons item rest ih =>
    exact .cons (writable item (by simp)).bytes (ih fun other member => writable other (by simp [member]))

theorem writeTag_eq {ε : Type} {number : UInt32} (nonzero : number ≠ 0) (wireType : WireType) :
    writeTag (ε := ε) number wireType = .ok (Tag.encode ⟨number, wireType, nonzero⟩) := by
  have made : Tag.new number wireType = some ⟨number, wireType, nonzero⟩ :=
    Tag.new_eq_some.mpr ⟨rfl, rfl⟩
  simp only [writeTag, made]

/-- Chunks whose bytes are known are written one after another. -/
theorem writeEach_ok {α ε : Type} {write : α → Outcome ε (List UInt8)} {bytes : α → List UInt8}
    {items : List α} (written : ∀ item ∈ items, write item = .ok (bytes item)) :
    writeEach write items = .ok (items.flatMap bytes) := by
  induction items with
  | nil => rfl
  | cons item rest ih =>
    have later := ih fun other member => written other (List.mem_cons_of_mem _ member)
    rw [writeEach, written item List.mem_cons_self, later]
    rfl

/-- Writing a list succeeds if writing each of its members does. -/
theorem writeEach_isOk_iff {α ε : Type} {write : α → Outcome ε (List UInt8)} {items : List α} :
    (∃ bytes, writeEach write items = .ok bytes) ↔ ∀ item ∈ items, ∃ bytes, write item = .ok bytes := by
  induction items with
  | nil => simp [writeEach]
  | cons item rest ih =>
    rw [List.forall_mem_cons, ← ih]
    simp only [writeEach, Outcome.bind_eq_ok, Outcome.ok.injEq]
    constructor
    · rintro ⟨_, head, here, tail, there, _⟩
      exact ⟨⟨head, here⟩, tail, there⟩
    · rintro ⟨⟨head, here⟩, tail, there⟩
      exact ⟨_, head, here, tail, there, rfl⟩

end TptProto.Core
