import TptProto.Codegen.MergeSpec

/-! Input whose items all belong to regular arms: merging it applies the arms in turn,
whatever the other arms are. -/

namespace TptProto.Codegen

open TptProto.Foundation TptProto.Core TptProto.Descriptor

variable {recurse : Merge} {schema : Schema} {arms : List (UInt32 × Arm)}

/-- The arm of a number, if there is one, reads exactly one value. -/
def RegularAt (arms : List (UInt32 × Arm)) (number : UInt32) : Prop :=
  ∀ arm, SortedMap.get? arms number = some arm → arm.Regular

/-- The unread input is items of regular arms. -/
private def Reads (arms : List (UInt32 × Arm)) (state : Struct × Reader) : Prop :=
  state.2.Solvent ∧ ∃ items : List Item, Items (mergeWire arms) items state.2.rest ∧
    ∀ item ∈ items, RegularAt arms item.tag.fieldNumber

private theorem reads_tag {state : Struct × Reader} (reads : Reads arms state)
    (more : (!state.2.isEmpty) = true) {tag : Tag} {after : Reader}
    (read : state.2.readTag = .ok (tag, after)) : RegularAt arms tag.fieldNumber := by
  obtain ⟨solvent, items, wire, regular⟩ := reads
  obtain ⟨tagBytes, rest, raw, split, tagWire, numbered, _⟩ := (Reader.readTag_wire solvent.tracked).mp read
  cases items with
  | nil =>
    have empty := (Reader.isEmpty_iff _).mpr (sequence_nil_iff.mp wire)
    simp [empty] at more
  | cons item others =>
    obtain ⟨first, later, split', itemWire, _⟩ := sequence_cons_iff.mp wire
    obtain ⟨tagBytes', raw', valueBytes, rfl, tagWire', numbered', _⟩ := itemWire
    rw [split, List.append_assoc] at split'
    obtain ⟨_, rfl, _⟩ := tagWire.unique tagWire' split'
    rw [UInt32.toNat_inj.mp (numbered.trans numbered'.symm)]
    exact regular item List.mem_cons_self

private theorem mergeStep_reads {state : Struct × Reader} (reads : Reads arms state)
    (more : (!state.2.isEmpty) = true) :
    mergeStep recurse schema arms state =
      fieldStep id (mergeWire arms) (applyArm recurse schema arms) state :=
  mergeStep_eq_at (fun _ _ read => reads_tag reads more read) _ _

private theorem reads_next {state next : Struct × Reader} (reads : Reads arms state)
    (moved : fieldStep id (mergeWire arms) (applyArm recurse schema arms) state = .ok next) :
    Reads arms next := by
  obtain ⟨solvent, items, wire, regular⟩ := reads
  obtain ⟨item, bytes, rest, split, itemWire, _, _, advanced, solvent'⟩ :=
    (fieldStep_eq_ok_iff solvent).mp moved
  have left : next.2.rest = rest := by rw [advanced.rest_eq, split, List.drop_left]
  cases items with
  | nil =>
    have positive := itemWire.length_pos
    rw [sequence_nil_iff.mp wire] at split
    have gone := (List.append_eq_nil_iff.mp split.symm).1
    simp [gone] at positive
  | cons first others =>
    obtain ⟨head, tail, split', firstWire, otherWires⟩ := sequence_cons_iff.mp wire
    obtain ⟨_, _, rfl⟩ := itemWire.unique firstWire (split.symm.trans split')
    exact ⟨solvent', others, left ▸ otherWires, fun other member =>
      regular other (List.mem_cons_of_mem _ member)⟩

/-- Merging items of regular arms applies their arms in turn. -/
theorem mergeWith_items {fqn : String} {msg final : Struct} {r : Reader} {items : List Item}
    (regular : ∀ item ∈ items,
      RegularAt (genArms schema (schema.messageOf fqn)) item.tag.fieldNumber)
    (solvent : r.Solvent)
    (wire : Items (mergeWire (genArms schema (schema.messageOf fqn))) items r.rest) :
    mergeWith recurse schema fqn msg r = .ok final ↔ Affords r items ∧
      items.foldlM (applyArm recurse schema (genArms schema (schema.messageOf fqn)) r.limits r.depth)
        msg = .ok final := by
  have looped : r.drain (mergeStep recurse schema (genArms schema (schema.messageOf fqn))) msg =
      r.drain (fieldStep id (mergeWire (genArms schema (schema.messageOf fqn)))
        (applyArm recurse schema (genArms schema (schema.messageOf fqn)))) msg := by
    refine loop_congr (Reads (genArms schema (schema.messageOf fqn)))
      (fun state reads more => mergeStep_reads reads more)
      (fun state next reads more moved => ?_) ⟨solvent, items, wire, regular⟩
    rw [mergeStep_reads reads more] at moved
    exact reads_next reads moved
  have whole : mergeWith recurse schema fqn msg r = .ok final ↔
      ∃ r', r.drain (mergeStep recurse schema (genArms schema (schema.messageOf fqn))) msg =
        .ok (final, r') := by
    simp [mergeWith, Outcome.bind_eq_ok]
  rw [whole, looped, drain_fieldStep_eq_ok_iff id solvent]
  constructor
  · rintro ⟨items', wire', affords, folded⟩
    obtain rfl := wire.unique (item_delimited _) wire'
    exact ⟨affords, folded⟩
  · rintro ⟨affords, folded⟩
    exact ⟨items, wire, affords, folded⟩

/-- Merging input that begins with the tag of a regular arm reads a value after it. -/
theorem mergeWith_first {fqn : String} {msg final : Struct} {r : Reader} (tag : Tag)
    {tagBytes rest : List UInt8} {raw : UInt64}
    (regular : RegularAt (genArms schema (schema.messageOf fqn)) tag.fieldNumber) (solvent : r.Solvent)
    (split : r.rest = tagBytes ++ rest) (wire : WireVarint tagBytes raw)
    (number : tag.fieldNumber.toNat = raw.toNat / 8 % 2 ^ 32)
    (kind : tag.wireType.asU8.toNat = raw.toNat % 8)
    (merged : mergeWith recurse schema fqn msg r = .ok final) :
    ∃ value bytes later, rest = bytes ++ later ∧ ValueBytes value bytes ∧
      value.wireType = mergeWire (genArms schema (schema.messageOf fqn)) tag := by
  simp only [mergeWith, Outcome.bind_eq_ok, Prod.exists] at merged
  obtain ⟨_, r', drained, _⟩ := merged
  obtain ⟨visited, run, _⟩ := loop_eq_ok_iff.mp drained
  have sameTag {other : Tag} {tagBytes' : List UInt8} {raw' : UInt64} {rest' : List UInt8}
      (split' : r.rest = tagBytes' ++ rest') (wire' : WireVarint tagBytes' raw')
      (number' : other.fieldNumber.toNat = raw'.toNat / 8 % 2 ^ 32)
      (kind' : other.wireType.asU8.toNat = raw'.toNat % 8) : other = tag ∧ rest' = rest := by
    obtain ⟨_, rfl, tails⟩ := wire'.unique wire (split'.symm.trans split)
    exact ⟨Tag.ext (UInt32.toNat_inj.mp (number'.trans number.symm)) (asU8_inj (kind'.trans kind.symm)),
      tails⟩
  cases run with
  | done finished =>
    have empty := (Reader.isEmpty_iff r).mp (by simpa using finished)
    have positive := wire.length_pos
    rw [split] at empty
    simp [(List.append_eq_nil_iff.mp empty).1] at positive
  | step more moved _ =>
    rw [mergeStep_eq_at (fun other after read => by
      obtain ⟨_, _, _, split', wire', number', kind', _⟩ := (Reader.readTag_wire solvent.tracked).mp read
      rw [(sameTag split' wire' number' kind').1]
      exact regular)] at moved
    obtain ⟨item, bytes, later, split', itemWire, _⟩ := (fieldStep_eq_ok_iff solvent).mp moved
    obtain ⟨tagBytes', raw', valueBytes, rfl, wire', number', kind', sameKind, value⟩ := itemWire
    rw [List.append_assoc] at split'
    obtain ⟨same, tails⟩ := sameTag split' wire' number' kind'
    exact ⟨item.value, valueBytes, later, tails.symm, value, by rw [sameKind, same]⟩

/-- Merging occurrences of one field applies its arm to them in turn. -/
theorem mergeWith_occurrences {fqn : String} {msg final : Struct} {r : Reader} {items : List Item}
    {number : UInt32} {arm : Arm}
    (found : SortedMap.get? (genArms schema (schema.messageOf fqn)) number = some arm)
    (regular : arm.Regular) (solvent : r.Solvent)
    (wire : Items (fun tag => arm.wire tag.wireType) items r.rest) (affords : Affords r items)
    (same : ∀ item ∈ items, item.tag.fieldNumber = number) :
    mergeWith recurse schema fqn msg r = .ok final ↔
      items.foldlM (fun msg item => arm.apply recurse schema r.limits r.depth msg number
        item.tag.wireType item.value) msg = .ok final := by
  have applied : items.foldlM (applyArm recurse schema (genArms schema (schema.messageOf fqn)) r.limits
      r.depth) msg = items.foldlM (fun msg item => arm.apply recurse schema r.limits r.depth msg number
        item.tag.wireType item.value) msg := by
    refine Outcome.foldlM_congr (fun msg item member => ?_) msg
    simp only [applyArm, same item member, found]
  rw [← applied, mergeWith_items (fun item member arm' here => ?_) solvent
    (wire.rewire fun item member => by simp only [mergeWire, same item member, found])]
  · exact and_iff_right affords
  · rw [same item member, found] at here
    cases here
    exact regular

end TptProto.Codegen
