import TptProto.Core.Collect

/-! Writing collected unknown fields back. The writer shifts the 32-bit number
left by three in 32 bits, so numbers of 30 bits and more do not survive. -/

namespace TptProto.Core

open TptProto.Foundation

namespace UnknownFieldSet

theorem canonical_addFrames {set : UnknownFieldSet} (canonical : set.Canonical)
    (frames : List Frame) : (set.addFrames frames).Canonical := by
  induction frames generalizing set with
  | nil => exact canonical
  | cons frame rest ih => exact ih (canonical.insert _ _)

/-- Every number collects its frames' values in wire order. -/
theorem valuesOf_addFrames (set : UnknownFieldSet) (frames : List Frame) (number : Nat) :
    (set.addFrames frames).valuesOf number =
      set.valuesOf number ++
        (frames.filter fun frame => frame.stored.toNat = number).map Frame.value := by
  induction frames generalizing set with
  | nil => simp [addFrames]
  | cons frame rest ih =>
    have step := ih (set.insert frame.stored frame.value)
    rw [valuesOf_insert, List.append_assoc] at step
    refine step.trans ?_
    rw [List.filter_cons]
    by_cases here : frame.stored.toNat = number <;> simp [here]

@[simp] theorem valuesOf_empty (number : Nat) : empty.valuesOf number = [] := rfl

/-- The stored entries are the frames' values under the frames' stored numbers. -/
theorem entries_addFrames_perm (set : UnknownFieldSet) (frames : List Frame) :
    (set.addFrames frames).entries.Perm
      (set.entries ++ frames.map fun frame => (frame.stored, frame.value)) := by
  induction frames generalizing set with
  | nil => simp [addFrames]
  | cons frame rest ih =>
    have inserted := (entries_insert_perm set frame.stored frame.value).append_right
      (rest.map fun frame => (frame.stored, frame.value))
    rw [List.append_assoc] at inserted
    exact (ih _).trans inserted

theorem mem_entries_addFrames {frames : List Frame} {entry : UInt32 × UnknownValue} :
    entry ∈ (empty.addFrames frames).entries ↔
      ∃ frame ∈ frames, (frame.stored, frame.value) = entry := by
  rw [(entries_addFrames_perm empty frames).mem_iff]
  exact List.mem_map

/-- The frames `encode` writes for stored entries. -/
def writtenFrames (entries : List (UInt32 × UnknownValue)) : List Frame :=
  entries.map fun entry => ⟨entry.1.toNat % 2 ^ 29, entry.2⟩

private theorem writeBucket_frames {ε : Type} {key : UInt32} (nonzero : key ≠ 0)
    {values : List UnknownValue} (sized : ∀ value ∈ values, value.Sized) :
    ∃ bytes, writeEach (writeValue (ε := ε) key) values = .ok bytes ∧
      Frames (writtenFrames (values.map fun value => (key, value))) bytes ∧
      bytes.length = entriesLen (values.map fun value => (key, value)) := by
  induction values with
  | nil => exact ⟨[], rfl, .nil, rfl⟩
  | cons value rest ih =>
    obtain ⟨head, written, wire, size⟩ := writeValue_frame (ε := ε) nonzero (sized value (by simp))
    obtain ⟨tail, writtenRest, wireRest, sizeRest⟩ := ih fun other member =>
      sized other (by simp [member])
    refine ⟨head ++ tail, by simp [writeEach, written, writtenRest], .cons wire wireRest, ?_⟩
    simp only [entriesLen, List.map_cons, List.sum_cons] at sizeRest ⊢
    rw [List.length_append, size, sizeRest]

/-- `encode` succeeds on sets without the number zero and writes each entry as one frame. -/
theorem encode_frames {ε : Type} {set : UnknownFieldSet}
    (nonzero : ∀ entry ∈ set.entries, entry.1 ≠ 0)
    (sized : ∀ entry ∈ set.entries, entry.2.Sized) (nonempty : ∀ field ∈ set.fields, field.2 ≠ []) :
    ∃ bytes, set.encode (ε := ε) = .ok bytes ∧ Frames (writtenFrames set.entries) bytes ∧
      bytes.length = entriesLen set.entries := by
  unfold encode entries at *
  generalize set.fields = fields at *
  induction fields with
  | nil => exact ⟨[], rfl, .nil, rfl⟩
  | cons field rest ih =>
    simp only [List.flatMap_cons, List.mem_append] at nonzero sized ⊢
    obtain ⟨first, more, isCons⟩ := List.exists_cons_of_ne_nil (nonempty field (by simp))
    have keyNonzero : field.1 ≠ 0 := nonzero (field.1, first) (.inl (by simp [isCons]))
    have valuesSized : ∀ value ∈ field.2, value.Sized := fun value member =>
      sized (field.1, value) (.inl (by simpa using member))
    obtain ⟨head, written, wire, size⟩ := writeBucket_frames (ε := ε) keyNonzero valuesSized
    obtain ⟨tail, writtenRest, wireRest, sizeRest⟩ := ih
      (fun entry member => nonzero entry (.inr member))
      (fun entry member => sized entry (.inr member))
      fun other member => nonempty other (by simp [member])
    refine ⟨head ++ tail, by simp [writeEach, written, writtenRest], ?_, ?_⟩
    · rw [writtenFrames, List.map_append]
      exact wire.append wireRest
    · simp only [entriesLen, List.map_append, List.sum_append] at size sizeRest ⊢
      rw [List.length_append, size, sizeRest]

end UnknownFieldSet

open UnknownFieldSet

/-- A frame's shortest form is not longer than the frame. -/
theorem Frame.Bytes.stored_le {frame : Frame} {bytes : List UInt8} (wire : frame.Bytes bytes) :
    tagLen frame.stored + valueLen frame.value ≤ bytes.length := by
  obtain ⟨tagBytes, raw, valueBytes, rfl, tag, denoted, value⟩ := wire
  have tagShort : tagLen frame.stored ≤ tagBytes.length := by
    refine Nat.le_trans ?_ tag.minimal
    rw [tagLen_eq _ frame.value.wireType, encodeVarint_length, encodeVarint_length, Tag.raw_toNat]
    apply Base128.size_mono
    rw [denoted, Frame.stored, UInt32.toNat_ofNat']
    omega
  rw [List.length_append]
  exact Nat.add_le_add tagShort value.valueLen_le

theorem Frames.stored_le {frames : List Frame} {bytes : List UInt8} (wire : Frames frames bytes) :
    (frames.map fun frame => tagLen frame.stored + valueLen frame.value).sum ≤ bytes.length := by
  induction wire with
  | nil => exact Nat.le_refl _
  | cons head _ ih =>
    rw [List.map_cons, List.sum_cons, List.length_append]
    exact Nat.add_le_add head.stored_le ih

theorem ValueBytes.sized {value : UnknownValue} {bytes : List UInt8} (wire : ValueBytes value bytes) :
    value.Sized := by
  cases wire with
  | @lengthDelimited len _ _ _ width =>
    have := len.toNat_lt
    simp only [UnknownValue.Sized]
    omega
  | _ => trivial

theorem Frames.sized {frames : List Frame} {bytes : List UInt8} (wire : Frames frames bytes) :
    ∀ frame ∈ frames, frame.value.Sized := by
  induction wire with
  | nil => simp
  | cons head _ ih =>
    obtain ⟨_, _, _, _, _, _, value⟩ := head
    simpa using ⟨value.sized, ih⟩

/-- Collecting loses nothing, renumbers nothing, and what is written back collects
to the same set. -/
structure Preserved (limits : DecoderLimits) (frames : List Frame) (set : UnknownFieldSet) : Prop where
  reread : ∃ out : Slice, set.encode = (.ok out.bytes : Result _) ∧ collect out limits = .ok set
  kept : ∀ number, set.valuesOf number =
    (frames.filter fun frame => frame.number = number).map Frame.value
  separate : ∀ first ∈ frames, ∀ second ∈ frames, first.number ≠ second.number →
    first.stored ≠ second.stored

/-- What is known of a collected set: its frames, its budgets, and its encoding. -/
private theorem collected_encode {bytes : Slice} {limits : DecoderLimits} {frames : List Frame}
    (wire : Frames frames bytes.bytes)
    (budgets : Budgeted limits bytes frames (empty.addFrames frames)) :
    ∃ out : Slice, (empty.addFrames frames).encode = (.ok out.bytes : Result _) ∧
      Frames (writtenFrames (empty.addFrames frames).entries) out.bytes ∧
      out.length ≤ bytes.length := by
  have canonical := canonical_addFrames canonical_empty frames
  have entryNonzero : ∀ entry ∈ (empty.addFrames frames).entries, entry.1 ≠ 0 := by
    intro entry stored
    obtain ⟨frame, member, rfl⟩ := mem_entries_addFrames.mp stored
    exact budgets.numbers frame member
  have entrySized : ∀ entry ∈ (empty.addFrames frames).entries, entry.2.Sized := by
    intro entry stored
    obtain ⟨frame, member, rfl⟩ := mem_entries_addFrames.mp stored
    exact wire.sized frame member
  obtain ⟨out, written, outFrames, size⟩ :=
    encode_frames (ε := Error) entryNonzero entrySized canonical.nonempty
  have short : out.length ≤ bytes.length := by
    rw [size, entriesLen, ((entries_addFrames_perm empty frames).map _).sum_nat]
    simpa [entries, empty, Function.comp_def, Slice.length] using wire.stored_le
  have bound := bytes.length_lt_usize
  exact ⟨⟨out, by omega⟩, written, outFrames, short⟩

private theorem stored_toNat_of_lt {frame : Frame} (small : frame.number < 2 ^ 32) :
    frame.stored.toNat = frame.number := by
  rw [Frame.stored, UInt32.toNat_ofNat']
  omega

private theorem recollect_budgets {bytes out : Slice} {limits : DecoderLimits} {frames : List Frame}
    {set : UnknownFieldSet} (budgets : Budgeted limits bytes frames (empty.addFrames frames))
    (short : out.length ≤ bytes.length)
    (small : ∀ frame ∈ frames, frame.number < 2 ^ 29)
    (same : set = empty.addFrames frames) :
    Budgeted limits out (writtenFrames (empty.addFrames frames).entries) set := by
  have entries := entries_addFrames_perm empty frames
  have written : ∀ frame ∈ writtenFrames (empty.addFrames frames).entries,
      ∃ original ∈ frames, frame.stored = original.stored ∧ frame.value = original.value := by
    intro frame member
    obtain ⟨entry, stored, rfl⟩ := List.mem_map.mp member
    obtain ⟨original, here, rfl⟩ := mem_entries_addFrames.mp stored
    refine ⟨original, here, ?_, rfl⟩
    have low := small original here
    apply UInt32.toNat_inj.mp
    rw [Frame.stored, UInt32.toNat_ofNat', stored_toNat_of_lt (by omega)]
    show original.number % 2 ^ 29 % 2 ^ 32 = original.number
    omega
  have count : (writtenFrames (empty.addFrames frames).entries).length = frames.length := by
    rw [writtenFrames, List.length_map, entries.length_eq]
    simp [UnknownFieldSet.entries, empty]
  refine ⟨?_, ?_, DecoderLimits.within_mono short budgets.bytes, ?_, ?_⟩
  · intro frame member
    obtain ⟨original, here, number, _⟩ := written frame member
    rw [number]
    exact budgets.numbers original here
  · intro frame member
    obtain ⟨original, here, _, value⟩ := written frame member
    rw [value]
    exact budgets.values original here
  · rw [count]
    exact budgets.fields
  · rw [same]
    exact budgets.unknown

/-- Re-reading the written entries restores the set when no number is cut. -/
private theorem addFrames_writtenFrames {frames : List Frame}
    (small : ∀ frame ∈ frames, frame.number < 2 ^ 29) :
    empty.addFrames (writtenFrames (empty.addFrames frames).entries) = empty.addFrames frames := by
  have canonical := canonical_addFrames canonical_empty
  refine (canonical _).ext (canonical _) fun number => ?_
  rw [valuesOf_addFrames, valuesOf_empty, List.nil_append, writtenFrames, List.filter_map,
    List.map_map, valuesOf]
  congr 1
  apply List.filter_congr
  intro entry stored
  obtain ⟨frame, member, rfl⟩ := mem_entries_addFrames.mp stored
  have low := small frame member
  simp only [Function.comp_apply, Frame.stored, UInt32.toNat_ofNat', decide_eq_decide]
  omega

/-- A collected buffer survives storing and re-encoding exactly when all of its
field numbers are below `2 ^ 29`. -/
theorem preserved_iff {bytes : Slice} {limits : DecoderLimits} {set : UnknownFieldSet}
    {frames : List Frame} (collected : collect bytes limits = .ok set)
    (wire : Frames frames bytes.bytes) :
    Preserved limits frames set ↔ ∀ frame ∈ frames, frame.number < 2 ^ 29 := by
  obtain ⟨frames', wire', rfl, budgets⟩ := collect_eq_ok_iff.mp collected
  obtain rfl := Sequence.unique frame_delimited wire wire'
  obtain ⟨out, written, outWire, short⟩ := collected_encode wire budgets
  constructor
  · intro preserved frame member
    have kept : (empty.addFrames frames).valuesOf frame.number ≠ [] := by
      rw [preserved.kept]
      exact List.ne_nil_of_mem (List.mem_map.mpr ⟨frame, by simpa using member, rfl⟩)
    obtain ⟨out', written', reread⟩ := preserved.reread
    have sameOut : out.bytes = out'.bytes := Outcome.ok.inj (written.symm.trans written')
    obtain ⟨rewritten, rewire, same, _⟩ := collect_eq_ok_iff.mp reread
    rw [← sameOut] at rewire
    obtain rfl := Sequence.unique frame_delimited outWire rewire
    rw [same, valuesOf_addFrames, valuesOf_empty, List.nil_append, ne_eq, List.map_eq_nil_iff]
      at kept
    obtain ⟨cut, found⟩ := List.exists_mem_of_ne_nil _ kept
    obtain ⟨inside, number⟩ := List.mem_filter.mp found
    obtain ⟨entry, _, rfl⟩ := List.mem_map.mp inside
    simp only [Frame.stored, UInt32.toNat_ofNat', decide_eq_true_eq] at number
    omega
  · intro small
    refine ⟨⟨out, written, ?_⟩, ?_, ?_⟩
    · have restored := addFrames_writtenFrames small
      exact collect_eq_ok_iff.mpr ⟨_, outWire, restored.symm,
        recollect_budgets budgets short small rfl⟩
    · intro number
      rw [valuesOf_addFrames, valuesOf_empty, List.nil_append]
      congr 1
      apply List.filter_congr
      intro frame member
      rw [stored_toNat_of_lt (Nat.lt_trans (small frame member) (by decide))]
    · intro first here second there differ same
      have first_lt := small first here
      have second_lt := small second there
      rw [← UInt32.toNat_inj, stored_toNat_of_lt (by omega), stored_toNat_of_lt (by omega)] at same
      exact differ same

/-- Field 1 with the varint 1. -/
theorem preserved_iff_one :
    Preserved .default [⟨1, .varint 1⟩] (empty.insert 1 (.varint 1)) ↔
      ∀ frame ∈ [Frame.mk 1 (.varint 1)], frame.number < 2 ^ 29 :=
  have collected : collect ⟨[0x08, 0x01], by decide⟩ .default = .ok (empty.insert 1 (.varint 1)) := by
    decide +kernel
  preserved_iff collected (.single ⟨[0x08], 8, [0x01], rfl, wireVarint_encodeVarint 8, by decide,
    .varint (wireVarint_encodeVarint 1)⟩)

/-- Field `2 ^ 29` is stored, and written back with the invalid tag zero. -/
theorem not_preserved_wide_number :
    collect ⟨[0x80, 0x80, 0x80, 0x80, 0x10, 0x00], by decide⟩ .default =
        .ok (empty.insert 536870912 (.varint 0)) ∧
      Frames [⟨2 ^ 29, .varint 0⟩] [0x80, 0x80, 0x80, 0x80, 0x10, 0x00] ∧
      collect ⟨[0x00, 0x00], by decide⟩ .default = .err (.invalidTag 0) ∧
      ¬ Preserved .default [⟨2 ^ 29, .varint 0⟩] (empty.insert 536870912 (.varint 0)) := by
  have reread : collect ⟨[0x00, 0x00], by decide⟩ .default = .err (.invalidTag 0) := by
    decide +kernel
  have written : (empty.insert 536870912 (.varint 0)).encode = (.ok [0x00, 0x00] : Result _) := by
    decide +kernel
  refine ⟨by decide +kernel, ?_, reread, ?_⟩
  · exact .single ⟨[0x80, 0x80, 0x80, 0x80, 0x10], 4294967296, [0x00], rfl,
      wireVarint_encodeVarint 4294967296, by decide, .varint (wireVarint_encodeVarint 0)⟩
  · rintro ⟨⟨out, encoded, collected⟩, _, _⟩
    have same : out = ⟨[0x00, 0x00], by decide⟩ := by
      cases out
      simp_all
    rw [same, reread] at collected
    cases collected

end TptProto.Core
