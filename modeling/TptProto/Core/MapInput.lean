import TptProto.Core.MapEntry

/-! Input made of entries of one map field, and what an entry's body is read as. -/

namespace TptProto.Core

open TptProto.Foundation

/-- An entry on the wire: its parts, and the body they are written in. -/
structure EntrySource where
  parts : List EntryPart
  body : List UInt8
  wire : EntryBody parts body

namespace EntrySource

variable (entry : EntrySource)

def items : List Item := entry.parts.filterMap EntryPart.item?

/-- The last value of the field with a number. -/
def last (number : UInt32) : Option UnknownValue := lastValue number entry.items

/-- The parts are those a writer may put into an entry, and fit the decoder's limits. Groups
have numbers of unknown fields. -/
structure Within (limits : DecoderLimits) : Prop where
  groups : ∀ number, .group number ∈ entry.parts → 3 ≤ number ∧ number < 2 ^ 29
  lengths : ∀ item ∈ entry.items, item.value.Fits limits
  bytes : DecoderLimits.within limits.maxBytes entry.body.length = true
  fields : DecoderLimits.within limits.maxFields entry.parts.length = true

theorem items_map (items : List Item) : (items.map EntryPart.field).filterMap EntryPart.item? = items := by
  induction items with
  | nil => rfl
  | cons item rest ih => simp [EntryPart.item?, ih]

variable {entry} {limits : DecoderLimits}

theorem parts_eq (groupless : Groupless entry.parts) : entry.parts = entry.items.map .field := by
  obtain ⟨items, same⟩ := groupless.items
  rw [EntrySource.items, same, items_map]

theorem itemsWire (groupless : Groupless entry.parts) : Items Tag.wireType entry.items entry.body :=
  EntryBody.items (parts_eq groupless ▸ entry.wire)

theorem last_mem {number : UInt32} {value : UnknownValue}
    (found : entry.last number = some value) :
    ∃ item ∈ entry.items, item.tag.fieldNumber = number ∧ item.value = value := by
  have member := List.mem_of_getLast? found
  obtain ⟨item, inside, same⟩ := List.mem_map.mp member
  obtain ⟨present, numbered⟩ := List.mem_filter.mp inside
  exact ⟨item, present, by simpa using numbered, same⟩

/-- The entry loop on an entry without groups. -/
theorem drained (depth : UInt32) (within : entry.Within limits) (short : entry.body.length < 2 ^ 63)
    (groupless : Groupless entry.parts) :
    ∃ held r', (Reader.childAt limits depth (.ofBytes entry.body)).drain Reader.mapEntryStep (none, none) =
        .ok (held, r') ∧
      Reader.Holds (entry.last 1) held.1 ∧ Reader.Holds (entry.last 2) held.2 := by
  have body : (Reader.childAt limits depth (.ofBytes entry.body)).rest = entry.body := by
    rw [Reader.childAt_rest, Slice.bytes_ofBytes short]
  have fields := within.fields
  rw [parts_eq groupless, List.length_map] at fields
  refine Reader.drain_mapEntry ⟨rfl, rfl, rfl⟩ (by rw [body]; exact itemsWire groupless)
    ⟨within.lengths, ?_, ?_⟩
  · rw [body]
    simpa [Reader.childAt] using within.bytes
  · simpa [Reader.childAt] using fields

/-- The entry loop on an entry with a group. -/
theorem drained_group (depth : UInt32) (within : entry.Within limits) (short : entry.body.length < 2 ^ 63)
    (grouped : ¬ Groupless entry.parts) :
    ∃ error, (Reader.childAt limits depth (.ofBytes entry.body)).drain Reader.mapEntryStep (none, none) =
        .err error := by
  have body : (Reader.childAt limits depth (.ofBytes entry.body)).rest = entry.body := by
    rw [Reader.childAt_rest, Slice.bytes_ofBytes short]
  obtain ⟨items, number, later, parts⟩ := exists_first_group grouped
  have lengths : ∀ item ∈ items, item.value.Fits limits := fun item member =>
    within.lengths item (by
      rw [EntrySource.items, parts, List.filterMap_append, items_map]
      exact List.mem_append_left _ member)
  have fields := within.fields
  rw [parts, List.length_append, List.length_map] at fields
  refine Reader.drain_mapEntry_group ⟨rfl, rfl, rfl⟩ (by rw [body, ← parts]; exact entry.wire)
    ⟨lengths, ?_, ?_⟩
  · rw [body]
    simpa [Reader.childAt] using within.bytes
  · exact DecoderLimits.within_mono (by simp [Reader.childAt]) fields

end EntrySource

private theorem childAt_tracked (limits : DecoderLimits) (depth : UInt32) (buf : Slice) :
    (Reader.childAt limits depth buf).Tracked := ⟨Nat.zero_le _, Nat.zero_le _⟩

/-- No reader that keeps the wire types of an entry's tags gets past a group in it. -/
theorem EntryBody.not_items {wireOf : Tag → WireType} {items : List Item} {number : Nat}
    {later : List EntryPart} {body : List UInt8}
    (wire : EntryBody (items.map .field ++ .group number :: later) body)
    (same : ∀ item ∈ items, wireOf item.tag = item.tag.wireType)
    (plain : ∀ tag : Tag, tag.fieldNumber.toNat = number % 2 ^ 32 → wireOf tag = tag.wireType)
    {read : List Item} : ¬ Items wireOf read body := by
  intro readWire
  induction items generalizing body read with
  | nil =>
    obtain ⟨head, tail, rfl, group, _⟩ := sequence_cons_iff.mp wire
    cases read with
    | nil =>
      have gone := (List.append_eq_nil_iff.mp (sequence_nil_iff.mp readWire)).1
      cases group with
      | intro opens =>
        have positive := opens.length_pos
        simp [(List.append_eq_nil_iff.mp gone).1] at positive
    | cons item others =>
      obtain ⟨word, rest, split, itemWire, _⟩ := sequence_cons_iff.mp readWire
      obtain ⟨tagBytes, raw, valueBytes, rfl, tag, numbered, kind, sameKind, _⟩ := itemWire
      cases group with
      | @intro _ first inner last rawFirst _ opens opened inside closes closed =>
        simp only [List.append_assoc] at split
        obtain ⟨_, rfl, _⟩ := opens.unique tag split
        have start : item.tag.wireType = .startGroup := asU8_inj (by
          rw [kind, opened]
          change (8 * number + 3) % 8 = 3
          omega)
        rw [plain item.tag (by rw [numbered, opened]; congr 1; omega), start] at sameKind
        cases value : item.value <;> rw [value] at sameKind <;> cases sameKind
  | cons item rest ih =>
    obtain ⟨head, tail, rfl, itemWire, restWire⟩ := sequence_cons_iff.mp wire
    obtain ⟨tagBytes, raw, valueBytes, rfl, tag, numbered, kind, sameKind, value⟩ := itemWire
    have asRead : item.Bytes wireOf (tagBytes ++ valueBytes) :=
      ⟨tagBytes, raw, valueBytes, rfl, tag, numbered, kind,
        sameKind.trans (same item List.mem_cons_self).symm, value⟩
    cases read with
    | nil =>
      have positive := asRead.length_pos
      simp [(List.append_eq_nil_iff.mp (sequence_nil_iff.mp readWire)).1] at positive
    | cons other others =>
      obtain ⟨word, after, split, otherWire, otherWires⟩ := sequence_cons_iff.mp readWire
      obtain ⟨_, _, rfl⟩ := asRead.unique otherWire split
      exact ih restWire (fun next member => same next (List.mem_cons_of_mem _ member)) otherWires

/-- Bytes held of a value are read as that value again. -/
theorem readUnknownValue_held {limits : DecoderLimits} (depth : UInt32) {value : UnknownValue}
    {raw : Slice} (wire : ValueBytes value raw.bytes) (fits : value.Fits limits)
    (budget : DecoderLimits.within limits.maxBytes raw.length = true) :
    ∃ r', readUnknownValue value.wireType (Reader.childAt limits depth raw) = .ok (value, r') ∧
      Reader.Kept (Reader.childAt limits depth raw) r' := by
  obtain ⟨r', moved⟩ := (Reader.childAt limits depth raw).exists_advanced raw.length 0 (by
    rw [show (Reader.childAt limits depth raw).pos = 0 from rfl, Nat.zero_add]
    exact Nat.le_refl _)
  refine ⟨r', (readUnknownValue_wire (childAt_tracked limits depth raw)).mpr
    ⟨raw.bytes, [], ?_, rfl, wire, fits, ?_, moved⟩, moved.kept⟩
  · rw [Reader.childAt_rest, List.append_nil]
  · simpa [Reader.childAt, Slice.length] using budget

/-- No value is read where there are no bytes. -/
theorem readUnknownValue_empty {limits : DecoderLimits} {depth : UInt32} {wireType : WireType}
    {value : UnknownValue} {r' : Reader} :
    readUnknownValue wireType (Reader.childAt limits depth .empty) ≠ .ok (value, r') := by
  intro read
  obtain ⟨bytes, rest, split, _, wire, _⟩ :=
    (readUnknownValue_wire (childAt_tracked limits depth .empty)).mp read
  have gone := (List.append_eq_nil_iff.mp split.symm).1
  have positive := wire.length_pos
  simp [gone] at positive

/-- An entry as an item of the message that has the map. -/
def entryItem (tag : Tag) (entry : EntrySource) : Item := ⟨tag, .lengthDelimited entry.body⟩

/-- The unread input is entries of one map field, within the limits. -/
structure MapInput (r : Reader) (tag : Tag) (entries : List EntrySource) : Prop where
  solvent : r.Solvent
  kind : tag.wireType = .lengthDelimited
  wire : Items Tag.wireType (entries.map (entryItem tag)) r.rest
  affords : Affords r (entries.map (entryItem tag))
  within : ∀ entry ∈ entries, entry.Within r.limits
  shallow : r.depth + 1 ≤ r.limits.maxDepth

theorem Items.payload_length {wireOf : Tag → WireType} {items : List Item} {bytes : List UInt8}
    (wire : Items wireOf items bytes) {item : Item} (member : item ∈ items) :
    item.value.payload.length ≤ bytes.length := by
  induction wire with
  | nil => cases member
  | cons head _ ih =>
    rw [List.length_append]
    rcases List.mem_cons.mp member with rfl | inside
    · obtain ⟨_, _, _, rfl, _, _, _, _, value⟩ := head
      have bound : ∀ {value : UnknownValue} {bytes : List UInt8}, ValueBytes value bytes →
          value.payload.length ≤ bytes.length := by
        intro value bytes wire
        cases wire <;> simp [UnknownValue.payload]
      have := bound value
      simp only [List.length_append]
      omega
    · have := ih inside
      omega

theorem MapInput.short {r : Reader} {tag : Tag} {entries : List EntrySource}
    (input : MapInput r tag entries) {entry : EntrySource} (member : entry ∈ entries) :
    entry.body.length < 2 ^ 63 := by
  have bound := Items.payload_length input.wire (List.mem_map_of_mem (f := entryItem tag) member)
  have inside := r.buf.length_lt
  rw [Reader.rest_length, Reader.remaining] at bound
  simp only [entryItem, UnknownValue.payload, Slice.length] at bound
  omega

end TptProto.Core
