import TptProto.Core.FieldLoop
import TptProto.Core.UnknownSpec

/-! Collecting a whole buffer into an unknown-field set and writing it back. -/

namespace TptProto.Core

open TptProto.Foundation

/-- One pass of `while !r.is_empty() { let tag = r.read_tag()?; set.store(tag, r)?; }`. -/
def collectStep (state : UnknownFieldSet × Reader) : Result (UnknownFieldSet × Reader) := do
  let (tag, r) ← state.2.readTag
  state.1.stored tag r

def collect (bytes : Slice) (limits : DecoderLimits) : Result UnknownFieldSet := do
  let (set, _) ← (Reader.withLimits bytes limits).drain collectStep .empty
  .ok set

/-- Insert the frames' values under the numbers their tags are narrowed to. -/
def UnknownFieldSet.addFrames (set : UnknownFieldSet) (frames : List Frame) : UnknownFieldSet :=
  frames.foldl (fun set frame => set.insert frame.stored frame.value) set

theorem stored_eq_ok_iff {set set' : UnknownFieldSet} {tag : Tag} {r r' : Reader} :
    set.stored tag r = .ok (set', r') ↔
      ∃ value, readUnknownValue tag.wireType r = .ok (value, r') ∧
        set' = set.insert tag.fieldNumber value ∧
        DecoderLimits.within r'.limits.maxUnknownBytes set'.totalLen = true := by
  unfold UnknownFieldSet.stored UnknownFieldSet.store
  cases read : readUnknownValue tag.wireType r with
  | ok pair =>
    obtain ⟨value, next⟩ := pair
    simp only [DecoderLimits.checkUnknown, Outcome.bind_eq_ok, DecoderLimits.check_eq_ok,
      exists_const, Outcome.ok.injEq, Prod.mk.injEq, UnknownFieldSet.encodedLen]
    constructor
    · rintro ⟨_, ⟨fits, rfl⟩, rfl, rfl⟩
      exact ⟨value, ⟨rfl, rfl⟩, rfl, fits⟩
    · rintro ⟨_, ⟨rfl, rfl⟩, rfl, fits⟩
      exact ⟨_, ⟨fits, rfl⟩, rfl, rfl⟩
  | err | panic | outOfFuel => simp

/-- Inserting an item's value, within `max_unknown_bytes`. -/
def UnknownFieldSet.keep (limits : DecoderLimits) (set : UnknownFieldSet) (item : Item) :
    Result UnknownFieldSet := do
  let set := set.insert item.tag.fieldNumber item.value
  limits.checkUnknown set.encodedLen
  .ok set

/-- Storing a field is reading it with its own wire type and keeping it. -/
theorem stored_eq {set : UnknownFieldSet} {tag : Tag} {r : Reader} :
    set.stored tag r = (do
      let (value, r) ← readUnknownValue tag.wireType r
      let kept ← set.keep r.limits ⟨tag, value⟩
      .ok (kept, r)) := by
  unfold UnknownFieldSet.stored UnknownFieldSet.store UnknownFieldSet.keep
  cases readUnknownValue tag.wireType r with
  | ok pair =>
    cases within : pair.2.limits.checkUnknown (set.insert tag.fieldNumber pair.1).encodedLen with
    | ok _ => simp [within]
    | err | panic | outOfFuel => simp [within]
  | err | panic | outOfFuel => rfl

theorem collectStep_eq : collectStep =
    fieldStep id Tag.wireType fun limits _ set item => set.keep limits item := by
  funext state
  simp only [collectStep, fieldStep, stored_eq, Outcome.mapErr_id]

theorem keep_eq_ok_iff {limits : DecoderLimits} {set set' : UnknownFieldSet} {item : Item} :
    set.keep limits item = .ok set' ↔
      set' = set.insert item.tag.fieldNumber item.value ∧
        DecoderLimits.within limits.maxUnknownBytes set'.totalLen = true := by
  simp only [UnknownFieldSet.keep, DecoderLimits.checkUnknown, Outcome.bind_eq_ok,
    DecoderLimits.check_eq_ok, exists_const, Outcome.ok.injEq, UnknownFieldSet.encodedLen]
  constructor
  · rintro ⟨fits, rfl⟩
    exact ⟨rfl, fits⟩
  · rintro ⟨rfl, fits⟩
    exact ⟨fits, rfl⟩

/-- Frames and the items a tag's own wire type delimits are the same bytes. -/
inductive Frames.Read : List Frame → List Item → Prop where
  | nil : Read [] []
  | cons {frame : Frame} {item : Item} {frames : List Frame} {items : List Item}
      (number : item.tag.fieldNumber = frame.stored) (kind : item.tag.wireType = frame.value.wireType)
      (value : item.value = frame.value) (rest : Read frames items) :
      Read (frame :: frames) (item :: items)

theorem Item.Bytes.frame {item : Item} {bytes : List UInt8}
    (wire : item.Bytes Tag.wireType bytes) :
    ∃ frame : Frame, frame.Bytes bytes ∧ item.tag.fieldNumber = frame.stored ∧
      item.tag.wireType = frame.value.wireType ∧ item.value = frame.value := by
  obtain ⟨tagBytes, raw, valueBytes, rfl, tag, number, kind, sameKind, value⟩ := wire
  refine ⟨⟨raw.toNat / 8, item.value⟩, ⟨tagBytes, raw, valueBytes, rfl, tag, ?_, value⟩, ?_,
    sameKind.symm, rfl⟩
  · simp only [sameKind, kind]
    omega
  · apply UInt32.toNat_inj.mp
    rw [Frame.stored, UInt32.toNat_ofNat', number]

theorem Frame.Bytes.item {frame : Frame} {bytes : List UInt8} (wire : frame.Bytes bytes)
    (nonzero : frame.stored ≠ 0) :
    Item.Bytes Tag.wireType ⟨⟨frame.stored, frame.value.wireType, nonzero⟩, frame.value⟩ bytes := by
  obtain ⟨tagBytes, raw, valueBytes, rfl, tag, denoted, value⟩ := wire
  have low := frame.value.wireType.asU8_lt
  refine ⟨tagBytes, raw, valueBytes, rfl, tag, ?_, ?_, rfl, value⟩
  · simp only [Frame.stored, UInt32.toNat_ofNat']
    omega
  · simp only
    omega

theorem Items.frames {items : List Item} {bytes : List UInt8}
    (wire : Items Tag.wireType items bytes) :
    ∃ frames, Frames frames bytes ∧ Frames.Read frames items := by
  induction wire with
  | nil => exact ⟨[], .nil, .nil⟩
  | cons head _ ih =>
    obtain ⟨frame, frameOk, number, kind, value⟩ := head.frame
    obtain ⟨frames, rest, read⟩ := ih
    exact ⟨frame :: frames, .cons frameOk rest, .cons number kind value read⟩

theorem Frames.items {frames : List Frame} {bytes : List UInt8} (wire : Frames frames bytes)
    (nonzero : ∀ frame ∈ frames, frame.stored ≠ 0) :
    ∃ items, Items Tag.wireType items bytes ∧ Frames.Read frames items := by
  induction wire with
  | nil => exact ⟨[], .nil, .nil⟩
  | @cons frame _ _ frames head _ ih =>
    obtain ⟨items, rest, read⟩ := ih fun other member => nonzero other (by simp [member])
    exact ⟨_ :: items, .cons (head.item (nonzero frame (by simp))) rest, .cons rfl rfl rfl read⟩

/-- The budgets a whole buffer of frames must meet. -/
structure Budgeted (limits : DecoderLimits) (bytes : Slice) (frames : List Frame)
    (set : UnknownFieldSet) : Prop where
  numbers : ∀ frame ∈ frames, frame.stored ≠ 0
  values : ∀ frame ∈ frames, frame.value.Fits limits
  bytes : DecoderLimits.within limits.maxBytes bytes.length = true
  fields : DecoderLimits.within limits.maxFields frames.length = true
  unknown : DecoderLimits.within limits.maxUnknownBytes set.totalLen = true

theorem addFrames_totalLen_mono (set : UnknownFieldSet) (frames : List Frame) :
    set.totalLen ≤ (set.addFrames frames).totalLen := by
  induction frames generalizing set with
  | nil => exact Nat.le_refl _
  | cons frame rest ih =>
    have step : set.totalLen ≤ (set.insert frame.stored frame.value).totalLen :=
      Nat.le_add_right _ _
    exact Nat.le_trans step (ih _)

/-- Keeping items in turn inserts their frames; the last check implies the earlier ones. -/
theorem Frames.Read.foldlM_keep {frames : List Frame} {items : List Item} {limits : DecoderLimits}
    {set final : UnknownFieldSet} (read : Frames.Read frames items)
    (start : DecoderLimits.within limits.maxUnknownBytes set.totalLen = true) :
    items.foldlM (fun set item => set.keep limits item) set = .ok final ↔
      final = set.addFrames frames ∧
        DecoderLimits.within limits.maxUnknownBytes final.totalLen = true := by
  induction read generalizing set with
  | nil =>
    simp only [List.foldlM_nil, Outcome.pure_eq, Outcome.ok.injEq]
    constructor
    · rintro rfl
      exact ⟨rfl, start⟩
    · rintro ⟨rfl, _⟩
      rfl
  | @cons frame item frames items number kind value _ ih =>
    simp only [List.foldlM_cons, Outcome.bind_eq_ok, keep_eq_ok_iff, number, value]
    constructor
    · rintro ⟨_, ⟨rfl, fits⟩, rest⟩
      exact (ih fits).mp rest
    · rintro ⟨same, fits⟩
      have early : DecoderLimits.within limits.maxUnknownBytes
          (set.insert frame.stored frame.value).totalLen = true := by
        refine DecoderLimits.within_mono (addFrames_totalLen_mono _ frames) ?_
        rw [same] at fits
        exact fits
      exact ⟨_, ⟨rfl, early⟩, (ih early).mpr ⟨same, fits⟩⟩

theorem Frames.Read.length_eq {frames : List Frame} {items : List Item}
    (read : Frames.Read frames items) : items.length = frames.length := by
  induction read with
  | nil => rfl
  | cons _ _ _ _ ih => rw [List.length_cons, List.length_cons, ih]

theorem Frames.Read.forall_iff {frames : List Frame} {items : List Item}
    (read : Frames.Read frames items) {Holds : UnknownValue → Prop} :
    (∀ item ∈ items, Holds item.value) ↔ ∀ frame ∈ frames, Holds frame.value := by
  induction read with
  | nil => simp
  | cons _ _ value _ ih => simp [value, ih]

theorem Frames.Read.nonzero {frames : List Frame} {items : List Item}
    (read : Frames.Read frames items) : ∀ frame ∈ frames, frame.stored ≠ 0 := by
  induction read with
  | nil => simp
  | @cons _ item _ _ number _ _ _ ih => simpa [← number] using ⟨item.tag.nonzero, ih⟩

/-- Collecting succeeds exactly on a sequence of frames within the budgets, and
yields the set of their values. -/
theorem collect_eq_ok_iff {bytes : Slice} {limits : DecoderLimits} {set : UnknownFieldSet} :
    collect bytes limits = .ok set ↔
      ∃ frames, Frames frames bytes.bytes ∧ set = UnknownFieldSet.empty.addFrames frames ∧
        Budgeted limits bytes frames set := by
  have empty : DecoderLimits.within limits.maxUnknownBytes UnknownFieldSet.empty.totalLen = true :=
    DecoderLimits.within_zero _
  have read : collect bytes limits = .ok set ↔
      ∃ r', (Reader.withLimits bytes limits).drain collectStep .empty = .ok (set, r') := by
    simp [collect, Outcome.bind_eq_ok]
  rw [read, collectStep_eq, drain_fieldStep_eq_ok_iff id (Reader.withLimits_solvent bytes limits)]
  constructor
  · rintro ⟨items, wire, affords, folded⟩
    obtain ⟨frames, frameBytes, read⟩ := wire.frames
    obtain ⟨same, unknown⟩ := (read.foldlM_keep empty).mp folded
    have bytesBudget := affords.bytes
    have fieldsBudget := affords.fields
    rw [Reader.withLimits_bytesRead, Nat.zero_add] at bytesBudget
    rw [Reader.withLimits_fieldCount, Nat.zero_add, Nat.mul_one, read.length_eq] at fieldsBudget
    exact ⟨frames, frameBytes, same, read.nonzero, read.forall_iff.mp affords.each, bytesBudget,
      fieldsBudget, unknown⟩
  · rintro ⟨frames, wire, same, budgets⟩
    obtain ⟨items, itemBytes, read⟩ := wire.items budgets.numbers
    refine ⟨items, itemBytes, ⟨read.forall_iff.mpr budgets.values, ?_, ?_⟩,
      (read.foldlM_keep empty).mpr ⟨same, budgets.unknown⟩⟩
    · rw [Reader.withLimits_bytesRead, Nat.zero_add]
      exact budgets.bytes
    · rw [Reader.withLimits_fieldCount, Nat.zero_add, Nat.mul_one, read.length_eq]
      exact budgets.fields

end TptProto.Core
