import TptProto.Core.FieldLoop
import TptProto.Core.Nesting
import TptProto.Core.Packed

/-! The bodies of map entries on the wire, and what the entry loop of the runtime keeps of
one: the last value of the key and of the value field. -/

namespace TptProto.Core

open TptProto.Foundation

section Grammar

mutual

/-- A legacy group: the tags around it and the fields between them. -/
inductive GroupBytes : Nat → List UInt8 → Prop where
  | intro {number : Nat} {first body last : List UInt8} {rawFirst rawLast : UInt64}
      (opens : WireVarint first rawFirst) (opened : rawFirst.toNat = 8 * number + 3)
      (inside : GroupBody body) (closes : WireVarint last rawLast)
      (closed : rawLast.toNat = 8 * number + 4) : GroupBytes number (first ++ (body ++ last))

inductive GroupBody : List UInt8 → Prop where
  | done : GroupBody []
  | field {frame : Frame} {word rest : List UInt8} (head : frame.Bytes word)
      (tail : GroupBody rest) : GroupBody (word ++ rest)
  | group {number : Nat} {word rest : List UInt8} (head : GroupBytes number word)
      (tail : GroupBody rest) : GroupBody (word ++ rest)

end

/-- A part of an entry's body: a field of any number, or a group. -/
inductive EntryPart where
  | field (item : Item)
  | group (number : Nat)

def EntryPart.Bytes : EntryPart → List UInt8 → Prop
  | .field item, bytes => item.Bytes Tag.wireType bytes
  | .group number, bytes => GroupBytes number bytes

abbrev EntryBody : List EntryPart → List UInt8 → Prop := Sequence EntryPart.Bytes

def EntryPart.item? : EntryPart → Option Item
  | .field item => some item
  | .group _ => none

/-- No part is a group. -/
def Groupless (parts : List EntryPart) : Prop := ∀ number, .group number ∉ parts

/-- The values that items give a field, in their order. -/
def occurrences (number : UInt32) (items : List Item) : List UnknownValue :=
  (items.filter fun item => item.tag.fieldNumber = number).map Item.value

/-- The value that the last item with the number gives. -/
def lastValue (number : UInt32) (items : List Item) : Option UnknownValue :=
  (occurrences number items).getLast?

theorem lastValue_append (number : UInt32) (items : List Item) (item : Item) :
    lastValue number (items ++ [item]) =
      if item.tag.fieldNumber = number then some item.value else lastValue number items := by
  by_cases same : item.tag.fieldNumber = number <;>
    simp [lastValue, occurrences, List.filter_append, same]

/-- Parts without groups are items. -/
theorem Groupless.items {parts : List EntryPart} (groupless : Groupless parts) :
    ∃ items : List Item, parts = items.map .field := by
  induction parts with
  | nil => exact ⟨[], rfl⟩
  | cons part rest ih =>
    obtain ⟨items, same⟩ := ih fun number member => groupless number (List.mem_cons_of_mem _ member)
    cases part with
    | field item => exact ⟨item :: items, by rw [same, List.map_cons]⟩
    | group number => exact absurd List.mem_cons_self (groupless number)

theorem EntryBody.items {items : List Item} {body : List UInt8}
    (wire : EntryBody (items.map .field) body) : Items Tag.wireType items body := by
  induction items generalizing body with
  | nil =>
    rw [sequence_nil_iff.mp wire]
    exact .nil
  | cons item rest ih =>
    obtain ⟨head, tail, rfl, here, there⟩ := sequence_cons_iff.mp wire
    exact .cons here (ih there)

theorem EntryBody.ofItems {items : List Item} {body : List UInt8}
    (wire : Items Tag.wireType items body) : EntryBody (items.map .field) body := by
  induction wire with
  | nil => exact .nil
  | cons head _ ih => exact sequence_cons_iff.mpr ⟨_, _, rfl, head, ih⟩

/-- Parts with a group split where the first one starts. -/
theorem exists_first_group {parts : List EntryPart} (grouped : ¬ Groupless parts) :
    ∃ (items : List Item) (number : Nat) (later : List EntryPart), parts = items.map .field ++ .group number :: later := by
  induction parts with
  | nil => exact absurd (fun _ => List.not_mem_nil) grouped
  | cons part rest ih =>
    cases part with
    | group number => exact ⟨[], number, rest, rfl⟩
    | field item =>
      have later : ¬ Groupless rest := fun groupless => grouped fun number member => by
        rcases List.mem_cons.mp member with same | inside
        · cases same
        · exact groupless number inside
      obtain ⟨items, number, after, same⟩ := ih later
      exact ⟨item :: items, number, after, by rw [same]; rfl⟩

end Grammar

namespace Reader

/-- A pass that moved over a value. Not all of its bytes need to be counted. -/
structure Passed (r : Reader) (n tags : Nat) (r' : Reader) : Prop where
  buf : r'.buf = r.buf
  pos : r'.pos = r.pos + n
  depth : r'.depth = r.depth
  limits : r'.limits = r.limits
  fieldCount : r'.fieldCount = r.fieldCount + tags
  bytesRead : r'.bytesRead ≤ r.bytesRead + n

variable {r r' : Reader}

theorem Advanced.passed {n tags : Nat} (moved : Advanced r n tags r') (tracked : r.Tracked)
    (few : tags ≤ 1) : Passed r n tags r' where
  buf := moved.buf
  pos := moved.pos
  depth := moved.depth
  limits := moved.limits
  fieldCount := moved.fieldCount_eq tracked few
  bytesRead := Nat.le_of_eq (by rw [moved.bytesRead, tracked.count_bytes moved.inside])

theorem Passed.trans {r'' : Reader} {n m tags : Nat} (first : Passed r n tags r')
    (second : Passed r' m 0 r'') : Passed r (n + m) tags r'' where
  buf := second.buf.trans first.buf
  pos := by rw [second.pos, first.pos, Nat.add_assoc]
  depth := second.depth.trans first.depth
  limits := second.limits.trans first.limits
  fieldCount := by rw [second.fieldCount, first.fieldCount, Nat.add_zero]
  bytesRead := by
    have := second.bytesRead
    have := first.bytesRead
    omega

theorem Passed.tracked {n tags : Nat} (moved : Passed r n tags r') (tracked : r.Tracked)
    (covered : tags ≤ n) : r'.Tracked := by
  have := tracked.bytes
  have := tracked.fields
  have := moved.bytesRead
  constructor
  · rw [moved.pos]
    omega
  · rw [moved.pos, moved.fieldCount]
    omega

theorem Passed.rest_eq {n tags : Nat} (moved : Passed r n tags r') : r'.rest = r.rest.drop n := by
  rw [rest, rest, moved.buf, moved.pos, List.drop_drop]

theorem bufSlice_rest {bytes rest : List UInt8} (here : r.rest = bytes ++ rest) :
    ∃ part, r.bufSlice r.pos (r.pos + bytes.length) = .ok part ∧ part.bytes = bytes := by
  have inside := inside_of_rest here
  obtain ⟨part, found⟩ := Slice.range?_isSome (Nat.le_add_right r.pos bytes.length) inside
  refine ⟨part, by rw [bufSlice, found]; rfl, ?_⟩
  rw [(Slice.range?_eq_some.mp found).2.2, rest_take, here, List.take_left]

private theorem usizeAdd_inside {n : Nat} (inside : r.pos + n ≤ r.buf.length) :
    usizeAdd r.pos n = r.pos + n := by
  have bound := r.buf.length_lt_usize
  exact usizeAdd_of_lt (by omega)

/-- A value inside the budgets is read with the bytes it has on the wire. -/
theorem readRawValue_of_wire (tracked : r.Tracked) {value : UnknownValue} {bytes rest : List UInt8}
    (here : r.rest = bytes ++ rest) (wire : ValueBytes value bytes) (fits : value.Fits r.limits)
    (budget : DecoderLimits.within r.limits.maxBytes (r.bytesRead + bytes.length) = true) :
    ∃ raw r', readRawValue value.wireType r = .ok (raw, r') ∧ raw.bytes = bytes ∧
      Passed r bytes.length 0 r' := by
  have inside := inside_of_rest here
  obtain ⟨raw, sliced, same⟩ := bufSlice_rest here
  obtain ⟨next, moved⟩ := r.exists_advanced bytes.length 0 inside
  have passed := moved.passed tracked (by decide)
  have slicedNext : next.bufSlice r.pos (r.pos + bytes.length) = .ok raw := by
    rw [bufSlice, moved.buf]
    exact sliced
  cases wire with
  | @varint word _ wire =>
    refine ⟨raw, next, ?_, same, passed⟩
    have decoded : decodeVarint r.buf.bytes r.pos = .ok (word, bytes.length) :=
      decodeVarint_eq_ok.mpr ⟨bytes, rest, here, wire, rfl⟩
    have small : r.pos + bytes.length < 2 ^ 64 := by
      have bound := r.buf.length_lt_usize
      omega
    have indexed : r.index r.pos (r.pos + bytes.length) = .ok raw := by
      rw [index_eq_ok_iff, rest_take, here, List.take_left]
      exact ⟨Nat.le_add_right _ _, inside, same⟩
    have advanced : r.advance bytes.length = .ok next := by
      refine (advance_eq_ok_iff small).mpr ⟨inside, ?_, moved⟩
      rw [tracked.count_bytes inside]
      exact budget
    simp only [UnknownValue.wireType, readRawValue, readVarintRaw, decoded, Outcome.ok_bind,
      usizeAdd_inside inside, indexed, advanced]
  | fixed32 width =>
    refine ⟨raw, next, ?_, same, passed⟩
    have read : r.readFixed32 = .ok (fromLeBytes32 bytes, next) :=
      (readFixed32_wire tracked).mpr ⟨bytes, rest, here, .fixed32 width, budget, moved⟩
    rw [width] at inside slicedNext
    simp only [UnknownValue.wireType, readRawValue, read, Outcome.ok_bind, usizeAdd_inside inside,
      slicedNext]
  | fixed64 width =>
    refine ⟨raw, next, ?_, same, passed⟩
    have read : r.readFixed64 = .ok (fromLeBytes64 bytes, next) :=
      (readFixed64_wire tracked).mpr ⟨bytes, rest, here, .fixed64 width, budget, moved⟩
    rw [width] at inside slicedNext
    simp only [UnknownValue.wireType, readRawValue, read, Outcome.ok_bind, usizeAdd_inside inside,
      slicedNext]
  | @lengthDelimited len header payload wire width =>
    rw [List.length_append] at inside budget
    obtain ⟨after, counted⟩ := r.exists_advanced header.length 0 (by omega)
    have read : r.readVarint = .ok (len, after) := (readVarint_wire tracked).mpr
      ⟨header, payload ++ rest, by rw [here, List.append_assoc], wire,
        DecoderLimits.within_mono (by omega) budget, counted⟩
    have admitted : after.limits.checkLength len.toNat = .ok () := by
      rw [counted.limits, DecoderLimits.checkLength, DecoderLimits.check_eq_ok, ← width]
      exact fits
    have stop : usizeAdd after.pos len.toNat = r.pos + (header ++ payload).length := by
      have bound := r.buf.length_lt_usize
      rw [counted.pos, List.length_append, width, ← Nat.add_assoc]
      exact usizeAdd_of_lt (by omega)
    have slicedAfter : after.bufSlice r.pos (r.pos + (header ++ payload).length) = .ok raw := by
      rw [bufSlice, counted.buf]
      exact sliced
    have room : r.pos + (header ++ payload).length ≤ after.buf.length := by
      rw [counted.buf, List.length_append]
      exact inside
    refine ⟨raw, { after with pos := r.pos + (header ++ payload).length, pos_le := room }, ?_, same,
      ⟨counted.buf, rfl, counted.depth, counted.limits, counted.fieldCount, ?_⟩⟩
    · simp only [UnknownValue.wireType, readRawValue, read, Outcome.ok_bind, admitted, stop,
        if_neg (Nat.not_lt.mpr room), slicedAfter, setPos, dif_pos room]
    · rw [counted.bytesRead, tracked.count_bytes (by omega), List.length_append]
      omega

/-- A part of the buffer, with the cursor still over it. -/
private structure Inside (r : Reader) (part : Slice) (r' : Reader) : Prop where
  short : part.length ≤ r.buf.length
  kept : Kept r r'

private theorem length_le_of_range {slice part : Slice} {start stop : Nat}
    (found : slice.range? start stop = some part) : part.length ≤ slice.length := by
  obtain ⟨_, _, same⟩ := Slice.range?_eq_some.mp found
  rw [Slice.length, Slice.length, same, List.length_take, List.length_drop]
  omega

private theorem bufSlice_length {r : Reader} {start stop : Nat} {part : Slice}
    (sliced : r.bufSlice start stop = .ok part) : part.length ≤ r.buf.length :=
  length_le_of_range (Outcome.ofOption_eq_ok.mp sliced)

private theorem readRawValue_inside {r r' : Reader} {wireType : WireType} {raw : Slice}
    (read : readRawValue wireType r = .ok (raw, r')) : Inside r raw r' := by
  cases wireType with
  | varint =>
    simp only [readRawValue, readVarintRaw, Outcome.bind_eq_ok, Prod.exists,
      Outcome.ok.injEq, Prod.mk.injEq] at read
    obtain ⟨_, _, _, ⟨_, _, _, _, indexed, _, moved, _, rfl, rfl⟩, rfl, rfl⟩ := read
    obtain ⟨_, inside, same⟩ := index_eq_ok_iff.mp indexed
    refine ⟨?_, advance_kept moved⟩
    rw [Slice.length, Slice.length, same, List.length_take, List.length_drop]
    omega
  | fixed32 =>
    simp only [readRawValue, Outcome.bind_eq_ok, Prod.exists, Outcome.ok.injEq,
      Prod.mk.injEq] at read
    obtain ⟨_, _, moved, _, sliced, rfl, rfl⟩ := read
    have kept := readFixed32_kept moved
    exact ⟨by rw [← kept.buf]; exact bufSlice_length sliced, kept⟩
  | fixed64 =>
    simp only [readRawValue, Outcome.bind_eq_ok, Prod.exists, Outcome.ok.injEq,
      Prod.mk.injEq] at read
    obtain ⟨_, _, moved, _, sliced, rfl, rfl⟩ := read
    have kept := readFixed64_kept moved
    exact ⟨by rw [← kept.buf]; exact bufSlice_length sliced, kept⟩
  | lengthDelimited =>
    simp only [readRawValue, Outcome.bind_eq_ok, Prod.exists] at read
    obtain ⟨_, _, moved, _, _, read⟩ := read
    have kept := readVarint_kept moved
    split at read
    · cases read
    · simp only [Outcome.bind_eq_ok, Outcome.ok.injEq, Prod.mk.injEq] at read
      obtain ⟨_, sliced, _, placed, rfl, rfl⟩ := read
      simp only [setPos] at placed
      split at placed
      · cases placed
        exact ⟨by rw [← kept.buf]; exact bufSlice_length sliced, kept.buf, kept.limits, kept.depth⟩
      · cases placed
  | startGroup | endGroup => cases read

/-- What the entry loop holds lies in the entry. -/
private def HeldInside (r : Reader) (state : (Option Slice × Option Slice) × Reader) : Prop :=
  Kept r state.2 ∧ (∀ raw, state.1.1 = some raw → raw.length ≤ r.buf.length) ∧
    ∀ raw, state.1.2 = some raw → raw.length ≤ r.buf.length

private theorem mapEntryStep_held {r : Reader} {state next : (Option Slice × Option Slice) × Reader}
    (held : HeldInside r state) (moved : mapEntryStep state = .ok next) : HeldInside r next := by
  obtain ⟨kept, keys, values⟩ := held
  simp only [mapEntryStep, Outcome.bind_eq_ok, Prod.exists] at moved
  obtain ⟨tag, after, readTag, raw, last, readValue, moved⟩ := moved
  have keptTag := kept.trans (readTag_kept readTag)
  obtain ⟨short, keptValue⟩ := readRawValue_inside readValue
  rw [keptTag.buf] at short
  split at moved
  · cases moved
    exact ⟨keptTag.trans keptValue, fun other same => by cases same; exact short, values⟩
  · split at moved
    · cases moved
      exact ⟨keptTag.trans keptValue, keys, fun other same => by cases same; exact short⟩
    · cases moved
      exact ⟨keptTag.trans keptValue, keys, values⟩

theorem drain_mapEntry_inside {r last : Reader} {held : Option Slice × Option Slice}
    (drained : r.drain mapEntryStep (none, none) = .ok (held, last)) :
    (∀ raw, held.1 = some raw → raw.length ≤ r.buf.length) ∧
      ∀ raw, held.2 = some raw → raw.length ≤ r.buf.length :=
  (loop_invariant drained (HeldInside r)
    ⟨Kept.refl _, fun _ found => (nomatch found), fun _ found => (nomatch found)⟩
    fun _ _ held _ moved => mapEntryStep_held held moved).1.2

/-- The key and the value of an entry are shorter than the buffer it lies in. -/
theorem decodeMapEntryFrames_shorter {r r' : Reader} {key value : Slice}
    (read : r.decodeMapEntryFrames = .ok ((key, value), r')) :
    key.length < r.buf.length ∧ value.length < r.buf.length := by
  simp only [decodeMapEntryFrames, Outcome.bind_eq_ok, Prod.exists, Outcome.ok.injEq,
    Prod.mk.injEq, Outcome.ofOption_eq_ok] at read
  obtain ⟨body, _, readBody, er, opened, key', value', last, looped, _, rfl, ⟨rfl, rfl⟩, rfl⟩ := read
  have shorter := readLengthDelimited_shorter readBody
  obtain ⟨_, rfl⟩ := nested_eq_ok_iff.mp opened
  obtain ⟨keys, values⟩ := drain_mapEntry_inside looped
  have inner : ∀ raw : Slice, raw.length ≤ body.length → raw.length < r.buf.length :=
    fun raw bound => Nat.lt_of_le_of_lt bound shorter
  refine ⟨inner _ (keys _ rfl), ?_⟩
  cases value' with
  | none => exact inner _ (Nat.zero_le _)
  | some raw => exact inner _ (values _ rfl)

/-- What an entry loop holds of a field: the bytes of a value, or nothing. -/
def Holds (value : Option UnknownValue) (raw : Option Slice) : Prop :=
  match value, raw with
  | none, none => True
  | some value, some raw => ValueBytes value raw.bytes
  | _, _ => False

/-- The budgets that reading items one after another meets. -/
structure Covers (r : Reader) (items : List Item) (length : Nat) : Prop where
  lengths : ∀ item ∈ items, item.value.Fits r.limits
  bytes : DecoderLimits.within r.limits.maxBytes (r.bytesRead + length) = true
  fields : DecoderLimits.within r.limits.maxFields (r.fieldCount + items.length) = true

/-- What the loop holds after a value of a field. -/
def keep (number : UInt32) (raw : Slice) (held : Option Slice × Option Slice) :
    Option Slice × Option Slice :=
  if number = 1 then (some raw, held.2) else if number = 2 then (held.1, some raw) else held

/-- A pass over a tag and a value keeps the bytes of the value if it has one of the two numbers. -/
theorem mapEntryStep_reads (tracked : r.Tracked) {item : Item} {rawTag : UInt64}
    {tagBytes valueBytes rest : List UInt8} (here : r.rest = tagBytes ++ (valueBytes ++ rest))
    (tag : WireVarint tagBytes rawTag) (number : item.tag.fieldNumber.toNat = rawTag.toNat / 8 % 2 ^ 32)
    (kind : item.tag.wireType.asU8.toNat = rawTag.toNat % 8)
    (sameKind : item.value.wireType = item.tag.wireType) (value : ValueBytes item.value valueBytes)
    (fits : item.value.Fits r.limits)
    (budget : DecoderLimits.within r.limits.maxBytes
      (r.bytesRead + (tagBytes.length + valueBytes.length)) = true)
    (fields : DecoderLimits.within r.limits.maxFields (r.fieldCount + 1) = true)
    (held : Option Slice × Option Slice) :
    ∃ raw r', mapEntryStep (held, r) = .ok (keep item.tag.fieldNumber raw held, r') ∧
      raw.bytes = valueBytes ∧ Passed r (tagBytes.length + valueBytes.length) 1 r' := by
  have inside := inside_of_rest here
  obtain ⟨next, moved⟩ := r.exists_advanced tagBytes.length 1 inside
  have read : r.readTag = .ok (item.tag, next) := (readTag_wire tracked).mpr
    ⟨tagBytes, valueBytes ++ rest, rawTag, here, tag, number, kind,
      DecoderLimits.within_mono (by omega) budget, fields, moved⟩
  have passed := moved.passed tracked (Nat.le_refl _)
  have hereNext : next.rest = valueBytes ++ rest := by
    rw [passed.rest_eq, here, List.drop_left]
  obtain ⟨raw, r', readValue, same, further⟩ := readRawValue_of_wire
    (passed.tracked tracked tag.length_pos) hereNext value (by rw [passed.limits]; exact fits) (by
      have counted := passed.bytesRead
      rw [passed.limits]
      exact DecoderLimits.within_mono (by omega) budget)
  rw [sameKind] at readValue
  refine ⟨raw, r', ?_, same, passed.trans further⟩
  simp only [mapEntryStep, read, Outcome.ok_bind, readValue, keep]
  by_cases first : item.tag.fieldNumber = 1
  · rw [if_pos first, if_pos first]
  · rw [if_neg first, if_neg first]
    by_cases second : item.tag.fieldNumber = 2
    · rw [if_pos second, if_pos second]
    · rw [if_neg second, if_neg second]

/-- A pass over an item holds its value if it has one of the two numbers. -/
theorem mapEntryStep_item (tracked : r.Tracked) {item : Item} {bytes rest : List UInt8}
    (here : r.rest = bytes ++ rest) (wire : item.Bytes Tag.wireType bytes)
    (fits : item.value.Fits r.limits)
    (budget : DecoderLimits.within r.limits.maxBytes (r.bytesRead + bytes.length) = true)
    (fields : DecoderLimits.within r.limits.maxFields (r.fieldCount + 1) = true)
    {held : Option Slice × Option Slice} {before : List Item}
    (keys : Holds (lastValue 1 before) held.1) (values : Holds (lastValue 2 before) held.2) :
    ∃ held' r', mapEntryStep (held, r) = .ok (held', r') ∧ Passed r bytes.length 1 r' ∧
      Holds (lastValue 1 (before ++ [item])) held'.1 ∧
      Holds (lastValue 2 (before ++ [item])) held'.2 := by
  obtain ⟨tagBytes, rawTag, valueBytes, rfl, tag, number, kind, sameKind, value⟩ := wire
  rw [List.append_assoc] at here
  rw [List.length_append] at budget ⊢
  obtain ⟨raw, r', moved, same, passed⟩ :=
    mapEntryStep_reads tracked here tag number kind sameKind value fits budget fields held
  have wire : ValueBytes item.value raw.bytes := same ▸ value
  refine ⟨_, r', moved, passed, ?_⟩
  rw [lastValue_append, lastValue_append, keep]
  by_cases first : item.tag.fieldNumber = 1
  · have second : item.tag.fieldNumber ≠ 2 := by
      rw [first]
      decide
    rw [if_pos first, if_pos first, if_neg second]
    exact ⟨wire, values⟩
  · rw [if_neg first, if_neg first]
    by_cases second : item.tag.fieldNumber = 2
    · rw [if_pos second, if_pos second]
      exact ⟨keys, wire⟩
    · rw [if_neg second, if_neg second]
      exact ⟨keys, values⟩

/-- No pass gets past the start of a group. -/
theorem mapEntryStep_group (tracked : r.Tracked) {number : Nat} {bytes rest : List UInt8}
    (here : r.rest = bytes ++ rest) (wire : GroupBytes number bytes)
    (held : Option Slice × Option Slice) :
    ∃ error, mapEntryStep (held, r) = .err error := by
  cases read : r.readTag with
  | err error => exact ⟨error, by simp only [mapEntryStep, read, Outcome.err_bind]⟩
  | panic | outOfFuel => exact absurd (readTag_returns (r := r)) (by rw [read]; exact id)
  | ok pair =>
    obtain ⟨tag, next⟩ := pair
    obtain ⟨tagBytes, after, raw, split, tagWire, _, kind, _⟩ := (readTag_wire tracked).mp read
    cases wire with
    | @intro _ first body last rawFirst _ opens opened inside closes closed =>
      rw [here, List.append_assoc] at split
      obtain ⟨_, sameRaw, _⟩ := opens.unique tagWire split
      have start : tag.wireType = .startGroup := asU8_inj (by
        rw [kind, ← sameRaw, opened]
        change (8 * number + 3) % 8 = 3
        omega)
      exact ⟨_, by simp only [mapEntryStep, read, Outcome.ok_bind, start, readRawValue]; rfl⟩

/-- The loop passes over items, holding the last values of both fields. -/
theorem mapEntry_path {items : List Item} {word tail : List UInt8} (tracked : r.Tracked)
    (here : r.rest = word ++ tail) (wire : Items Tag.wireType items word)
    (covers : Covers r items word.length) (held : Option Slice × Option Slice) (before : List Item)
    (keys : Holds (lastValue 1 before) held.1) (values : Holds (lastValue 2 before) held.2) :
    ∃ visited held' r', Path (fun state => !state.2.isEmpty) mapEntryStep (held, r) visited (held', r') ∧
      visited.length = items.length ∧ r'.rest = tail ∧ r'.Tracked ∧
      Holds (lastValue 1 (before ++ items)) held'.1 ∧ Holds (lastValue 2 (before ++ items)) held'.2 := by
  induction items generalizing r word held before with
  | nil =>
    rw [sequence_nil_iff.mp wire, List.nil_append] at here
    exact ⟨[], held, r, .here, rfl, here, tracked, by rwa [List.append_nil], by rwa [List.append_nil]⟩
  | cons item rest ih =>
    obtain ⟨first, others, rfl, itemWire, restWire⟩ := sequence_cons_iff.mp wire
    have positive := itemWire.length_pos
    have bytesBudget := covers.bytes
    have fieldsBudget := covers.fields
    rw [List.length_append] at bytesBudget
    rw [List.length_cons] at fieldsBudget
    rw [List.append_assoc] at here
    obtain ⟨held', r', moved, passed, keys', values'⟩ := mapEntryStep_item tracked here itemWire
      (covers.lengths item List.mem_cons_self) (DecoderLimits.within_mono (by omega) bytesBudget)
      (DecoderLimits.within_mono (by omega) fieldsBudget) keys values
    have counted := passed.bytesRead
    have covers' : Covers r' rest others.length := by
      refine ⟨fun other member => ?_, ?_, ?_⟩
      · rw [passed.limits]
        exact covers.lengths other (List.mem_cons_of_mem _ member)
      · rw [passed.limits]
        exact DecoderLimits.within_mono (by omega) bytesBudget
      · rw [passed.limits, passed.fieldCount]
        exact DecoderLimits.within_mono (by omega) fieldsBudget
    have hereNext : r'.rest = others ++ tail := by
      rw [passed.rest_eq, here, List.drop_left]
    obtain ⟨visited, held'', r'', path, size, ends, tracked'', keys'', values''⟩ :=
      ih (passed.tracked tracked positive) hereNext restWire covers' _ _ keys' values'
    rw [List.append_assoc, List.singleton_append] at keys'' values''
    have more : (!r.isEmpty) = true := by
      have filled : r.isEmpty = false := by
        rw [isEmpty_eq_false_iff]
        have inside := inside_of_rest here
        omega
      rw [filled]
      rfl
    exact ⟨(held, r) :: visited, held'', r'', .step more moved path, by simp [size], ends, tracked'',
      keys'', values''⟩

theorem items_length_le {items : List Item} {word : List UInt8} (wire : Items Tag.wireType items word) :
    items.length ≤ word.length := by
  induction wire with
  | nil => exact Nat.zero_le _
  | cons head _ ih =>
    have := head.length_pos
    simp only [List.length_cons, List.length_append]
    omega

/-- A body of items leaves the last values of the key and of the value field. -/
theorem drain_mapEntry (start : r.AtStart) {items : List Item} (wire : Items Tag.wireType items r.rest)
    (covers : Covers r items r.rest.length) :
    ∃ held r', r.drain mapEntryStep (none, none) = .ok (held, r') ∧
      Holds (lastValue 1 items) held.1 ∧ Holds (lastValue 2 items) held.2 := by
  obtain ⟨visited, held, r', path, size, ends, _, keys, values⟩ :=
    mapEntry_path start.solvent.tracked (List.append_nil _).symm wire covers (none, none) []
      trivial trivial
  refine ⟨held, r', path.loop_finished ?_ ?_, keys, values⟩
  · rw [(isEmpty_iff r').mpr ends]
    rfl
  · rw [size, ← rest_length]
    exact items_length_le wire

/-- A body with a group is an error. -/
theorem drain_mapEntry_group (start : r.AtStart) {items : List Item} {number : Nat}
    {later : List EntryPart} (wire : EntryBody (items.map .field ++ .group number :: later) r.rest)
    (covers : Covers r items r.rest.length) :
    ∃ error, r.drain mapEntryStep (none, none) = .err error := by
  obtain ⟨word, tail, split, fields, others⟩ := Sequence.split wire
  obtain ⟨group, after, rfl, here, _⟩ := sequence_cons_iff.mp others
  have bytesBudget := covers.bytes
  rw [split, List.length_append] at bytesBudget
  obtain ⟨visited, held, r', path, size, ends, tracked, _⟩ :=
    mapEntry_path start.solvent.tracked split (EntryBody.items fields)
      ⟨covers.lengths, DecoderLimits.within_mono (by omega) bytesBudget, covers.fields⟩ (none, none) []
      trivial trivial
  obtain ⟨error, failed⟩ := mapEntryStep_group tracked ends here held
  have filled : 0 < group.length := by
    cases here with
    | intro opens =>
      have := opens.length_pos
      simp only [List.length_append]
      omega
  refine ⟨error, path.loop_failed ?_ failed ?_⟩
  · have more : r'.isEmpty = false := by
      rw [isEmpty_eq_false_iff]
      have inside := inside_of_rest ends
      omega
    simp [more]
  · have short := items_length_le (EntryBody.items fields)
    rw [size, ← rest_length, split]
    simp only [List.length_append]
    omega

end Reader

end TptProto.Core
