import TptProto.Core.Reencode

/-! Merging unknown-field sets. Each number's values are appended, so merging is
what collecting the concatenated bytes does. -/

namespace TptProto.Core

open TptProto.Foundation

namespace UnknownFieldSet

theorem sorted_appended (merged : UnknownFieldSet) (field : UInt32 × List UnknownValue) :
    SortedMap.Sorted
      (SortedMap.upsert merged.fields field.1 fun stored => stored.getD [] ++ field.2) :=
  merged.sorted.upsert _ _

/-- One pass of the loop of `merge_from`. -/
def addBucket (merged : UnknownFieldSet) (field : UInt32 × List UnknownValue) : UnknownFieldSet where
  fields := SortedMap.upsert merged.fields field.1 fun stored => stored.getD [] ++ field.2
  totalLen := merged.totalLen + (field.2.map fun value => tagLen field.1 + valueLen value).sum
  sorted := sorted_appended merged field

theorem mergeFrom_eq (set other : UnknownFieldSet) :
    set.mergeFrom other = other.fields.foldl addBucket set := rfl

/-- What a merged map holds under a key: the other bucket, if any, behind this one. -/
def mergedBucket (held more : Option (List UnknownValue)) : Option (List UnknownValue) :=
  match more with
  | none => held
  | some values => some (held.getD [] ++ values)

private theorem get?_addBuckets {fields : List (UInt32 × List UnknownValue)}
    (sorted : SortedMap.Sorted fields) (set : UnknownFieldSet) (key : UInt32) :
    SortedMap.get? (fields.foldl addBucket set).fields key =
      mergedBucket (SortedMap.get? set.fields key) (SortedMap.get? fields key) := by
  induction fields generalizing set with
  | nil => rfl
  | cons field rest ih =>
    obtain ⟨above, tail⟩ := List.pairwise_cons.mp sorted
    rw [List.foldl_cons, ih tail, SortedMap.get?_cons]
    simp only [addBucket, SortedMap.get?_upsert set.sorted]
    by_cases here : field.1 = key
    · have absent : SortedMap.get? rest key = none := by
        apply SortedMap.get?_eq_none_iff.mpr
        intro entry member same
        have ordered := above entry member
        rw [same, here] at ordered
        exact absurd ordered (UInt32.lt_irrefl key)
      rw [absent, if_pos here, if_pos here.symm, here]
      rfl
    · rw [if_neg here, if_neg fun same => here same.symm]

theorem get?_mergeFrom (set other : UnknownFieldSet) (key : UInt32) :
    SortedMap.get? (set.mergeFrom other).fields key =
      mergedBucket (SortedMap.get? set.fields key) (SortedMap.get? other.fields key) :=
  get?_addBuckets other.sorted set key

/-- The cached length grows by what the other set's entries encode to. -/
theorem totalLen_mergeFrom (set other : UnknownFieldSet) :
    (set.mergeFrom other).totalLen = set.totalLen + entriesLen other.entries := by
  rw [mergeFrom_eq, entries]
  generalize other.fields = fields
  induction fields generalizing set with
  | nil => rfl
  | cons field rest ih =>
    rw [List.foldl_cons, ih, addBucket]
    simp only [entriesLen, List.flatMap_cons, List.map_append, List.sum_append, List.map_map,
      Function.comp_def, Nat.add_assoc]

/-- Merging loses and invents no entry. -/
theorem entries_mergeFrom_perm (set other : UnknownFieldSet) :
    (set.mergeFrom other).entries.Perm (set.entries ++ other.entries) := by
  rw [mergeFrom_eq, entries.eq_1 other]
  generalize other.fields = fields
  induction fields generalizing set with
  | nil => simp
  | cons field rest ih =>
    have bucket : (set.addBucket field).entries.Perm
        (set.entries ++ field.2.map fun value => (field.1, value)) :=
      entries_upsert_perm set.fields field.1 field.2
    rw [List.foldl_cons, List.flatMap_cons, ← List.append_assoc]
    exact (ih _).trans (bucket.append_right _)

theorem entriesLen_mergeFrom (set other : UnknownFieldSet) :
    entriesLen (set.mergeFrom other).entries = entriesLen set.entries + entriesLen other.entries := by
  rw [entriesLen, ((entries_mergeFrom_perm set other).map _).sum_nat, List.map_append,
    List.sum_append]
  rfl

theorem Canonical.mergeFrom {set other : UnknownFieldSet} (canonical : set.Canonical)
    (otherCanonical : other.Canonical) : (set.mergeFrom other).Canonical where
  total := by rw [totalLen_mergeFrom, entriesLen_mergeFrom, canonical.total]
  nonempty := by
    intro field member
    have found := SortedMap.get?_of_mem (set.mergeFrom other).sorted member
    rw [get?_mergeFrom] at found
    cases more : SortedMap.get? other.fields field.1 with
    | none =>
      rw [more] at found
      exact canonical.nonempty _ (SortedMap.mem_of_get? found)
    | some values =>
      rw [more] at found
      have filled := otherCanonical.nonempty _ (SortedMap.mem_of_get? more)
      rw [← Option.some.inj found]
      exact List.append_ne_nil_of_right_ne_nil _ filled

/-- Every number's values are this set's followed by the other's. -/
theorem valuesOf_mergeFrom (set other : UnknownFieldSet) (number : Nat) :
    (set.mergeFrom other).valuesOf number = set.valuesOf number ++ other.valuesOf number := by
  by_cases small : number < 2 ^ 32
  · have known : (UInt32.ofNat number).toNat = number := by
      rw [UInt32.toNat_ofNat']
      omega
    rw [← known, valuesOf_key, valuesOf_key, valuesOf_key, get?_mergeFrom]
    cases SortedMap.get? other.fields (UInt32.ofNat number) with
    | none => exact (List.append_nil _).symm
    | some values => rfl
  · rw [valuesOf_large _ (by omega), valuesOf_large _ (by omega), valuesOf_large _ (by omega)]
    rfl

private theorem ext_buckets {first second : UnknownFieldSet}
    (buckets : ∀ key, SortedMap.get? first.fields key = SortedMap.get? second.fields key)
    (total : first.totalLen = second.totalLen) : first = second := by
  have fields := SortedMap.ext_get? first.sorted second.sorted buckets
  cases first
  cases second
  simp_all

theorem mergeFrom_assoc (first second third : UnknownFieldSet) :
    (first.mergeFrom second).mergeFrom third = first.mergeFrom (second.mergeFrom third) := by
  apply ext_buckets
  · intro key
    simp only [get?_mergeFrom]
    cases SortedMap.get? third.fields key with
    | none => rfl
    | some last =>
      cases SortedMap.get? second.fields key <;> simp [mergedBucket]
  · rw [totalLen_mergeFrom, totalLen_mergeFrom, totalLen_mergeFrom, entriesLen_mergeFrom,
      Nat.add_assoc]

theorem mergeFrom_empty (set : UnknownFieldSet) : set.mergeFrom empty = set := rfl

theorem Canonical.empty_mergeFrom {set : UnknownFieldSet} (canonical : set.Canonical) :
    empty.mergeFrom set = set := by
  refine (canonical_empty.mergeFrom canonical).ext canonical fun number => ?_
  rw [valuesOf_mergeFrom, valuesOf_empty, List.nil_append]

/-- The sets the public operations build. -/
inductive Built : UnknownFieldSet → Prop where
  | empty : Built .empty
  | insert {set : UnknownFieldSet} (built : Built set) (number : UInt32) (value : UnknownValue) :
      Built (set.insert number value)
  | store {set : UnknownFieldSet} (built : Built set) (tag : Tag) (reader : Reader) :
      Built (set.store tag reader).1
  | mergeFrom {set other : UnknownFieldSet} (built : Built set) (otherBuilt : Built other) :
      Built (set.mergeFrom other)

theorem Built.canonical {set : UnknownFieldSet} (built : Built set) : set.Canonical := by
  induction built with
  | empty => exact canonical_empty
  | insert _ number value ih => exact ih.insert number value
  | store _ tag reader ih =>
    unfold UnknownFieldSet.store
    split
    · exact ih.insert _ _
    all_goals exact ih
  | mergeFrom _ _ ih otherIh => exact ih.mergeFrom otherIh

theorem addFrames_append (first second : List Frame) :
    empty.addFrames (first ++ second) = (empty.addFrames first).mergeFrom (empty.addFrames second) := by
  have collected := canonical_addFrames canonical_empty
  refine (collected _).ext ((collected _).mergeFrom (collected _)) fun number => ?_
  rw [valuesOf_mergeFrom]
  simp only [valuesOf_addFrames, valuesOf_empty, List.nil_append, List.filter_append,
    List.map_append]

end UnknownFieldSet

open UnknownFieldSet

/-- The bytes, field count, value sizes and stored size that collecting these frames costs. -/
structure WithinLimits (limits : DecoderLimits) (bytes : List UInt8) (frames : List Frame) : Prop where
  values : ∀ frame ∈ frames, frame.value.Fits limits
  bytes : DecoderLimits.within limits.maxBytes bytes.length = true
  fields : DecoderLimits.within limits.maxFields frames.length = true
  unknown : DecoderLimits.within limits.maxUnknownBytes
    (frames.map fun frame => tagLen frame.stored + valueLen frame.value).sum = true

theorem totalLen_addFrames (frames : List Frame) :
    (empty.addFrames frames).totalLen =
      (frames.map fun frame => tagLen frame.stored + valueLen frame.value).sum := by
  rw [(canonical_addFrames canonical_empty frames).total, entriesLen,
    ((entries_addFrames_perm empty frames).map _).sum_nat]
  simp [entries, empty, Function.comp_def]

/-- Field numbers of a valid tag. -/
def Frame.Numbered (frame : Frame) : Prop := 1 ≤ frame.number ∧ frame.number ≤ 536870911

private theorem Frame.Numbered.stored_ne {frame : Frame} (numbered : frame.Numbered) :
    frame.stored ≠ 0 := by
  intro zero
  have same := congrArg UInt32.toNat zero
  rw [Frame.stored, UInt32.toNat_ofNat', Nat.mod_eq_of_lt (by have := numbered.2; omega)] at same
  have := numbered.1
  simp only [UInt32.toNat_zero] at same
  omega

private theorem collect_within {bytes : Slice} {limits : DecoderLimits} {frames : List Frame}
    (wire : Frames frames bytes.bytes) (numbered : ∀ frame ∈ frames, frame.Numbered)
    (within : WithinLimits limits bytes.bytes frames) :
    collect bytes limits = .ok (empty.addFrames frames) := by
  refine collect_eq_ok_iff.mpr ⟨frames, wire, rfl, ?_, within.values, within.bytes, within.fields, ?_⟩
  · exact fun frame member => (numbered frame member).stored_ne
  · rw [totalLen_addFrames]
    exact within.unknown

private theorem sum_le_of_sublist {chosen all : List Nat} (sublist : chosen.Sublist all) :
    chosen.sum ≤ all.sum := by
  induction sublist with
  | slnil => exact Nat.le_refl _
  | cons head _ ih => exact Nat.le_trans ih (Nat.le_add_left _ head)
  | cons_cons head _ ih => exact Nat.add_le_add_left ih head

/-- A part of what fits the limits fits them. -/
private theorem WithinLimits.part {limits : DecoderLimits} {bytes part : List UInt8}
    {frames chosen : List Frame} (within : WithinLimits limits bytes frames)
    (shorter : part.length ≤ bytes.length) (sublist : chosen.Sublist frames) :
    WithinLimits limits part chosen where
  values frame member := within.values frame (sublist.subset member)
  bytes := DecoderLimits.within_mono shorter within.bytes
  fields := DecoderLimits.within_mono sublist.length_le within.fields
  unknown := DecoderLimits.within_mono (sum_le_of_sublist (sublist.map _)) within.unknown

/-- Collecting joined buffers is collecting both and merging; merging is associative
and has the empty set as identity. -/
theorem collect_append (limits : DecoderLimits) :
    (∀ (first second joined : Slice) (framesOf framesOf' : List Frame),
      joined.bytes = first.bytes ++ second.bytes →
      Frames framesOf first.bytes → Frames framesOf' second.bytes →
      (∀ frame ∈ framesOf ++ framesOf', frame.Numbered) →
      WithinLimits limits joined.bytes (framesOf ++ framesOf') →
      ∃ set set', collect first limits = .ok set ∧ collect second limits = .ok set' ∧
        collect joined limits = .ok (set.mergeFrom set')) ∧
    (∀ first second third : UnknownFieldSet,
      (first.mergeFrom second).mergeFrom third = first.mergeFrom (second.mergeFrom third)) ∧
    ∀ set : UnknownFieldSet, Built set →
      set.mergeFrom empty = set ∧ empty.mergeFrom set = set := by
  refine ⟨?_, mergeFrom_assoc, fun set built =>
    ⟨mergeFrom_empty set, built.canonical.empty_mergeFrom⟩⟩
  intro first second joined framesOf framesOf' split wire wire' numbered within
  have whole : collect joined limits = .ok (empty.addFrames (framesOf ++ framesOf')) := by
    refine collect_within ?_ numbered within
    rw [split]
    exact wire.append wire'
  have length : joined.bytes.length = first.bytes.length + second.bytes.length := by
    rw [split, List.length_append]
  refine ⟨_, _, ?_, ?_, addFrames_append framesOf framesOf' ▸ whole⟩
  · refine collect_within wire (fun frame member => numbered frame (by simp [member])) ?_
    exact within.part (by omega) (List.sublist_append_left _ _)
  · refine collect_within wire' (fun frame member => numbered frame (by simp [member])) ?_
    exact within.part (by omega) (List.sublist_append_right _ _)

/-- Two buffers of one field each; the joined set caches a length of four bytes. -/
theorem collect_append_one :
    ∃ set set', collect ⟨[0x08, 0x01], by decide⟩ .default = .ok set ∧
      collect ⟨[0x08, 0x02], by decide⟩ .default = .ok set' ∧
      collect ⟨[0x08, 0x01, 0x08, 0x02], by decide⟩ .default = .ok (set.mergeFrom set') ∧
      (empty.mergeFrom empty).mergeFrom empty = empty.mergeFrom (empty.mergeFrom empty) ∧
      empty.mergeFrom empty = empty := by
  have frame (value : UInt64) : Frames [⟨1, .varint value⟩] ([0x08] ++ encodeVarint value) :=
    .single ⟨[0x08], 8, encodeVarint value, rfl, wireVarint_encodeVarint 8, rfl,
      .varint (wireVarint_encodeVarint value)⟩
  have claim := collect_append .default
  obtain ⟨set, set', first, second, joined⟩ := claim.1 ⟨[0x08, 0x01], by decide⟩
    ⟨[0x08, 0x02], by decide⟩ ⟨[0x08, 0x01, 0x08, 0x02], by decide⟩ [⟨1, .varint 1⟩]
    [⟨1, .varint 2⟩] rfl (frame 1) (frame 2) (by simp [Frame.Numbered])
    ⟨by simp [UnknownValue.Fits], by decide, by decide, by decide⟩
  exact ⟨set, set', first, second, joined, claim.2.1 _ _ _, (claim.2.2 _ .empty).1⟩

end TptProto.Core
