import TptProto.Codegen.Nesting
import TptProto.Codegen.Occurrences
import TptProto.Core.MapInput
import TptProto.Foundation.SortedMap

/-! The map that the emitted `merge_from` makes of the entries in its input. -/

namespace TptProto.Codegen

open TptProto.Foundation TptProto.Core TptProto.Descriptor

/-- The values of map keys, which `HashMap` compares. -/
def GenValue.IsKey : GenValue → Prop
  | .prim _ | .string _ => True
  | .bytes _ | .enum _ | .message _ => False

/-- `Default::default()` of a type. -/
def typeDefault (schema : Schema) : TyRef → GenValue
  | .scalar t => defaultScalar t
  | .enum _ => .enum (.variant 0)
  | .message fqn => .message (schema.default fqn)

/-- What an entry gives for one half of it: its last value, or the type's default. -/
def halfValue (recurse : Merge) (schema : Schema) (limits : DecoderLimits) (depth : UInt32) (ty : TyRef)
    (last : Option UnknownValue) : Result GenValue :=
  match last with
  | none => .ok (typeDefault schema ty)
  | some value => interpretTy recurse schema limits depth ty value

/-- The pair an entry denotes. -/
def entryPair (recurse : Merge) (schema : Schema) (limits : DecoderLimits) (depth : UInt32)
    (k v : TyRef) (entry : EntrySource) : Result (GenValue × GenValue) := do
  let key ← halfValue recurse schema limits depth k (entry.last 1)
  let value ← halfValue recurse schema limits depth v (entry.last 2)
  .ok (key, value)

/-- Fields 1 and 2 of an entry are written with the wire types of the key and the value. -/
def Typed (k v : TyRef) (entry : EntrySource) : Prop :=
  ∀ item ∈ entry.items, (item.tag.fieldNumber = 1 → item.value.wireType = tyWire k) ∧
    (item.tag.fieldNumber = 2 → item.value.wireType = tyWire v)

/-- An entry with both halves and no groups. -/
structure Complete (entry : EntrySource) : Prop where
  groupless : Groupless entry.parts
  key : (entry.last 1).isSome
  value : (entry.last 2).isSome

section Entry

variable {recurse : Merge} {schema : Schema} {limits : DecoderLimits} {depth : UInt32} {k v : TyRef}
  {entry : EntrySource}

/-- What is held of a half decodes exactly if the entry has that half. -/
private theorem half_eq_ok_iff {ty : TyRef} (plain : ty.Plain) {last : Option UnknownValue}
    {raw : Option Slice} (held : Reader.Holds last raw)
    (kind : ∀ value, last = some value → value.wireType = tyWire ty)
    (fits : ∀ value, last = some value → value.Fits limits)
    (budget : ∀ part, raw = some part → DecoderLimits.within limits.maxBytes part.length = true)
    {result : GenValue} :
    (∃ r', decValueExpr recurse schema ty (Reader.childAt limits depth (raw.getD .empty)) =
        .ok (result, r')) ↔
      last.isSome = true ∧ halfValue recurse schema limits (depth + 1) ty last = .ok result := by
  rw [decValueExpr_eq plain]
  cases last with
  | none =>
    cases raw with
    | some _ => exact held.elim
    | none =>
      simp only [Outcome.bind_eq_ok, Prod.exists, Option.isSome_none, Bool.false_eq_true, false_and,
        iff_false, not_exists, not_and]
      intro _ _ _ read
      exact absurd read readUnknownValue_empty
  | some value =>
    cases raw with
    | none => exact held.elim
    | some part =>
      obtain ⟨r', read, kept⟩ := readUnknownValue_held depth held (fits value rfl)
        (budget part rfl)
      rw [← kind value rfl, Option.getD_some, read, Outcome.ok_bind]
      simp only [kept.limits, kept.depth, Outcome.bind_eq_ok, Outcome.ok.injEq, Prod.mk.injEq,
        Option.isSome_some, true_and, halfValue]
      constructor
      · rintro ⟨_, _, read, rfl, _⟩
        exact read
      · intro read
        exact ⟨r', result, read, rfl, rfl⟩

private theorem last_fits (within : entry.Within limits) {number : UInt32} (value : UnknownValue)
    (found : entry.last number = some value) : value.Fits limits := by
  obtain ⟨item, member, _, rfl⟩ := EntrySource.last_mem found
  exact within.lengths item member

private theorem typed_key (typed : Typed k v entry) (value : UnknownValue)
    (found : entry.last 1 = some value) : value.wireType = tyWire k := by
  obtain ⟨item, member, numbered, rfl⟩ := EntrySource.last_mem found
  exact (typed item member).1 numbered

private theorem typed_value (typed : Typed k v entry) (value : UnknownValue)
    (found : entry.last 2 = some value) : value.wireType = tyWire v := by
  obtain ⟨item, member, numbered, rfl⟩ := EntrySource.last_mem found
  exact (typed item member).2 numbered

/-- An entry decodes exactly if it is complete, and then as the pair it denotes. -/
theorem interpretEntry_eq_ok_iff (plainKey : k.Plain) (plainValue : v.Plain)
    (within : entry.Within limits) (short : entry.body.length < 2 ^ 63)
    (shallow : depth + 1 ≤ limits.maxDepth) (typed : Typed k v entry) {pair : GenValue × GenValue} :
    interpretEntry recurse schema limits depth k v entry.body = .ok pair ↔
      Complete entry ∧ entryPair recurse schema limits (depth + 1) k v entry = .ok pair := by
  have opened : ∀ raw, Reader.nestedAt limits depth raw = .ok (Reader.childAt limits depth raw) :=
    fun raw => Reader.nestedAt_eq_ok_iff.mpr ⟨shallow, rfl⟩
  simp only [interpretEntry, opened, Outcome.ok_bind]
  by_cases groupless : Groupless entry.parts
  · obtain ⟨⟨rawKey, rawValue⟩, last, drained, keys, values⟩ :=
      EntrySource.drained depth within short groupless
    obtain ⟨keyInside, valueInside⟩ := Reader.drain_mapEntry_inside drained
    have budget : ∀ part : Slice,
        part.length ≤ (Reader.childAt limits depth (.ofBytes entry.body)).buf.length →
        DecoderLimits.within limits.maxBytes part.length = true := fun part inside =>
      DecoderLimits.within_mono (Nat.le_trans inside (Slice.length_ofBytes_le _)) within.bytes
    have keyRead : ∀ result, (∃ r', decValueExpr recurse schema k
          (Reader.childAt limits depth (rawKey.getD .empty)) = .ok (result, r')) ↔
        (entry.last 1).isSome = true ∧
          halfValue recurse schema limits (depth + 1) k (entry.last 1) = .ok result := fun result =>
      half_eq_ok_iff plainKey keys (typed_key typed) (last_fits within)
        fun part same => budget part (keyInside part same)
    have valueRead : ∀ result, (∃ r', decValueExpr recurse schema v
          (Reader.childAt limits depth (rawValue.getD .empty)) = .ok (result, r')) ↔
        (entry.last 2).isSome = true ∧
          halfValue recurse schema limits (depth + 1) v (entry.last 2) = .ok result := fun result =>
      half_eq_ok_iff plainValue values (typed_value typed) (last_fits within)
        fun part same => budget part (valueInside part same)
    rw [drained]
    simp only [Outcome.ok_bind]
    cases rawKey with
    | none =>
      have absent : entry.last 1 = none := by
        cases found : entry.last 1 with
        | none => rfl
        | some value =>
          rw [found] at keys
          exact keys.elim
      simp only [Outcome.ofOption_none, Outcome.err_bind, reduceCtorEq, false_iff, not_and]
      rintro ⟨_, present, _⟩
      simp [absent] at present
    | some rawKey =>
      simp only [Option.getD_some] at keyRead
      simp only [Outcome.ofOption_some, Outcome.ok_bind, Outcome.bind_eq_ok, Prod.exists,
        Outcome.ok.injEq, entryPair]
      constructor
      · rintro ⟨key, r', readKey, value, r'', readValue, rfl⟩
        obtain ⟨hasKey, keyValue⟩ := (keyRead key).mp ⟨r', readKey⟩
        obtain ⟨hasValue, valueValue⟩ := (valueRead value).mp ⟨r'', readValue⟩
        exact ⟨⟨groupless, hasKey, hasValue⟩, key, keyValue, value, valueValue, rfl⟩
      · rintro ⟨complete, key, keyValue, value, valueValue, rfl⟩
        obtain ⟨r', readKey⟩ := (keyRead key).mpr ⟨complete.key, keyValue⟩
        obtain ⟨r'', readValue⟩ := (valueRead value).mpr ⟨complete.value, valueValue⟩
        exact ⟨key, r', readKey, value, r'', readValue, rfl⟩
  · obtain ⟨error, drained⟩ := EntrySource.drained_group depth within short groupless
    rw [drained]
    simp only [Outcome.err_bind, reduceCtorEq, false_iff, not_and]
    rintro ⟨complete, _⟩
    exact absurd complete groupless

/-- The keys of entries are values that maps compare. -/
theorem entryPair_isKey {t : FieldType} (keyType : t.IsKey) {pair : GenValue × GenValue}
    (denotes : entryPair recurse schema limits depth (.scalar t) v entry = .ok pair) : pair.1.IsKey := by
  simp only [entryPair, Outcome.bind_eq_ok, Outcome.ok.injEq] at denotes
  obtain ⟨key, half, _, _, rfl⟩ := denotes
  cases last : entry.last 1 with
  | none =>
    rw [last] at half
    cases half
    cases t <;> trivial
  | some value =>
    rw [last] at half
    simp only [halfValue] at half
    cases t with
    | string =>
      simp only [interpretTy, Outcome.bind_eq_ok, Outcome.ok.injEq] at half
      obtain ⟨_, _, _, _, rfl⟩ := half
      trivial
    | float | double | bytes | enum | message | group => exact absurd keyType (by decide)
    | _ =>
      simp only [interpretTy, Outcome.bind_eq_ok, Outcome.ok.injEq] at half
      obtain ⟨_, _, rfl⟩ := half
      trivial

end Entry

section Insert

variable {entries : List (GenValue × GenValue)} {key value : GenValue}

theorem sameKey_iff {a b : GenValue} (isKey : a.IsKey) : sameKey a b = true ↔ a = b := by
  cases a with
  | prim v => cases b <;> simp [sameKey]
  | string s => cases b <;> simp [sameKey]
  | bytes _ | enum _ | message _ => exact isKey.elim

theorem mem_mapInsert_iff (keys : ∀ entry ∈ entries, entry.1.IsKey)
    (distinct : (entries.map Prod.fst).Nodup) {k v : GenValue} :
    (k, v) ∈ mapInsert entries key value ↔ (key, value) = (k, v) ∨ key ≠ k ∧ (k, v) ∈ entries := by
  induction entries with
  | nil => simp [mapInsert, eq_comm]
  | cons entry rest ih =>
    obtain ⟨stored, old⟩ := entry
    rw [List.map_cons, List.nodup_cons] at distinct
    have later := ih (fun entry member => keys entry (List.mem_cons_of_mem _ member)) distinct.2
    have same := sameKey_iff (b := key) (keys (stored, old) List.mem_cons_self)
    rw [mapInsert]
    split
    · rename_i found
      obtain rfl : stored = key := same.mp found
      have absent : ∀ v, (stored, v) ∉ rest := fun v member =>
        distinct.1 (List.mem_map.mpr ⟨(stored, v), member, rfl⟩)
      simp only [List.mem_cons, Prod.mk.injEq]
      constructor
      · rintro (⟨rfl, rfl⟩ | member)
        · exact .inl ⟨rfl, rfl⟩
        · exact .inr ⟨fun equal => absent v (equal ▸ member), .inr member⟩
      · rintro (⟨rfl, rfl⟩ | ⟨other, ⟨rfl, rfl⟩ | member⟩)
        · exact .inl ⟨rfl, rfl⟩
        · exact absurd rfl other
        · exact .inr member
    · rename_i other
      have differs : key ≠ stored := fun equal => other (same.mpr equal.symm)
      simp only [List.mem_cons, Prod.mk.injEq, later]
      constructor
      · rintro (⟨rfl, rfl⟩ | here | ⟨other, member⟩)
        · exact .inr ⟨differs, .inl ⟨rfl, rfl⟩⟩
        · exact .inl here
        · exact .inr ⟨other, .inr member⟩
      · rintro (here | ⟨other, here | member⟩)
        · exact .inr (.inl here)
        · exact .inl here
        · exact .inr (.inr ⟨other, member⟩)

theorem mapInsert_keys (keys : ∀ entry ∈ entries, entry.1.IsKey) (isKey : key.IsKey) :
    ∀ entry ∈ mapInsert entries key value, entry.1.IsKey := by
  induction entries with
  | nil => simpa [mapInsert] using isKey
  | cons entry rest ih =>
    have later := ih fun entry member => keys entry (List.mem_cons_of_mem _ member)
    have here := keys entry List.mem_cons_self
    rw [mapInsert]
    split
    · simpa using ⟨here, fun a b member => keys (a, b) (List.mem_cons_of_mem _ member)⟩
    · simpa using ⟨here, fun a b member => later (a, b) member⟩

theorem mapInsert_distinct (keys : ∀ entry ∈ entries, entry.1.IsKey)
    (distinct : (entries.map Prod.fst).Nodup) : ((mapInsert entries key value).map Prod.fst).Nodup := by
  induction entries with
  | nil => simp [mapInsert]
  | cons entry rest ih =>
    obtain ⟨stored, old⟩ := entry
    have keysRest := fun entry member => keys entry (List.mem_cons_of_mem (stored, old) member)
    rw [List.map_cons, List.nodup_cons] at distinct
    rw [mapInsert]
    split
    · rw [List.map_cons, List.nodup_cons]
      exact distinct
    · rename_i other
      rw [List.map_cons, List.nodup_cons]
      refine ⟨fun member => ?_, ih keysRest distinct.2⟩
      obtain ⟨⟨k, v⟩, inside, equal⟩ := List.mem_map.mp member
      rcases (mem_mapInsert_iff keysRest distinct.2).mp inside with same | ⟨_, present⟩
      · cases same
        exact other ((sameKey_iff (keys _ List.mem_cons_self)).mpr equal.symm)
      · exact distinct.1 (List.mem_map.mpr ⟨(k, v), present, equal⟩)

end Insert

/-- A struct whose field is a map with these entries. -/
structure MapSlot (msg : Struct) (number : UInt32) (entries : List (GenValue × GenValue)) : Prop where
  sorted : SortedMap.Sorted msg.fields
  slot : SortedMap.get? msg.fields number = some (.map entries)
  keys : ∀ entry ∈ entries, entry.1.IsKey
  distinct : (entries.map Prod.fst).Nodup

theorem MapSlot.insertEntry {msg : Struct} {number : UInt32} {entries : List (GenValue × GenValue)}
    (map : MapSlot msg number entries) {key value : GenValue} (isKey : key.IsKey) :
    MapSlot (msg.insertEntry number key value) number (mapInsert entries key value) where
  sorted := map.sorted.upsert _ _
  slot := by rw [GenMsg.insertEntry, SortedMap.get?_upsert map.sorted, if_pos rfl, map.slot]
  keys := mapInsert_keys map.keys isKey
  distinct := mapInsert_distinct map.keys map.distinct

/-- Inserting pairs in turn leaves the map they give. -/
theorem MapSlot.insertAll {msg : Struct} {number : UInt32} {entries given : List (GenValue × GenValue)}
    (map : MapSlot msg number entries) (latest : Latest entries given)
    {pairs : List (GenValue × GenValue)} (keys : ∀ pair ∈ pairs, pair.1.IsKey) :
    ∃ entries', MapSlot (pairs.foldl (fun msg pair => msg.insertEntry number pair.1 pair.2) msg) number
        entries' ∧ Latest entries' (given ++ pairs) := by
  induction pairs generalizing msg entries given with
  | nil => exact ⟨entries, map, by rwa [List.append_nil]⟩
  | cons pair rest ih =>
    have isKey := keys pair List.mem_cons_self
    have added : Latest (mapInsert entries pair.1 pair.2) (given ++ [pair]) :=
      latest.add (mapInsert_distinct map.keys map.distinct) fun _ _ =>
        mem_mapInsert_iff map.keys map.distinct
    obtain ⟨entries', map', latest'⟩ := ih (map.insertEntry isKey) added fun other member =>
      keys other (List.mem_cons_of_mem _ member)
    rw [List.append_assoc, List.singleton_append] at latest'
    exact ⟨entries', map', latest'⟩

/-- Merging the input succeeds and leaves the map that the pairs make of the stored one. -/
def MergesMap (schema : Schema) (fqn : String) (msg : Struct) (r : Reader) (number : UInt32)
    (stored claimed : List (GenValue × GenValue)) : Prop :=
  ∃ final entries, GenMsg.mergeFrom schema fqn msg r = .ok final ∧
    SortedMap.get? final.fields number = some (.map entries) ∧ Latest entries (stored ++ claimed)

/-- The emitted code makes the map of its entries exactly if all of them are complete. -/
theorem mergesMap_iff {schema : Schema} {fqn : String} {msg : Struct} {r : Reader} {tag : Tag}
    {t : FieldType} {v : TyRef} {entries : List EntrySource} {stored claimed : List (GenValue × GenValue)}
    (found : SortedMap.get? (genArms schema (schema.messageOf fqn)) tag.fieldNumber =
      some (.insertEntry (.scalar t) v))
    (keyType : t.IsKey) (plain : v.Plain) (input : MapInput r tag entries)
    (typed : ∀ entry ∈ entries, Typed (.scalar t) v entry)
    (map : MapSlot msg tag.fieldNumber stored)
    (denotes : entries.mapM (entryPair (GenMsg.mergeFrom schema) schema r.limits (r.depth + 1)
      (.scalar t) v) = .ok claimed) :
    MergesMap schema fqn msg r tag.fieldNumber stored claimed ↔ ∀ entry ∈ entries, Complete entry := by
  have plainKey : (TyRef.scalar t).Plain := by
    cases t <;> first | decide | exact absurd keyType (by decide)
  have spec : ∀ entry ∈ entries, ∀ pair,
      interpretEntry (GenMsg.mergeFrom schema) schema r.limits r.depth (.scalar t) v entry.body = .ok pair ↔
        Complete entry ∧ entryPair (GenMsg.mergeFrom schema) schema r.limits (r.depth + 1) (.scalar t) v
          entry = .ok pair := fun entry member pair =>
    interpretEntry_eq_ok_iff plainKey plain (input.within entry member) (input.short member)
      input.shallow (typed entry member)
  have merged : ∀ final, GenMsg.mergeFrom schema fqn msg r = .ok final ↔
      ∃ pairs, entries.mapM (fun entry => interpretEntry (GenMsg.mergeFrom schema) schema r.limits
          r.depth (.scalar t) v entry.body) = .ok pairs ∧
        final = pairs.foldl (fun msg pair => msg.insertEntry tag.fieldNumber pair.1 pair.2) msg := by
    intro final
    rw [GenMsg.mergeFrom_eq, mergeWith_occurrences found trivial input.solvent
      (input.wire.rewire fun item member => ?_) input.affords fun item member => ?_,
      List.foldlM_map, ← Outcome.foldlM_eq_ok_iff]
    · rfl
    · obtain ⟨entry, _, rfl⟩ := List.mem_map.mp member
      exact input.kind
    · obtain ⟨entry, _, rfl⟩ := List.mem_map.mp member
      rfl
  constructor
  · rintro ⟨final, _, success, _⟩ entry member
    obtain ⟨pairs, computed, _⟩ := (merged final).mp success
    obtain ⟨pair, _, here⟩ := (Outcome.mapM_eq_ok_mem computed).1 entry member
    exact ((spec entry member pair).mp here).1
  · intro complete
    have computed : entries.mapM (fun entry => interpretEntry (GenMsg.mergeFrom schema) schema r.limits
        r.depth (.scalar t) v entry.body) = .ok claimed := by
      rw [← denotes]
      refine Outcome.mapM_congr fun entry member => ?_
      obtain ⟨pair, _, here⟩ := (Outcome.mapM_eq_ok_mem denotes).1 entry member
      rw [here]
      exact (spec entry member pair).mpr ⟨complete entry member, here⟩
    have keys : ∀ pair ∈ claimed, pair.1.IsKey := fun pair member => by
      obtain ⟨entry, _, here⟩ := (Outcome.mapM_eq_ok_mem denotes).2 pair member
      exact entryPair_isKey keyType here
    obtain ⟨entries', map', latest⟩ := map.insertAll (latest_self_iff.mpr map.distinct) keys
    exact ⟨_, entries', (merged _).mpr ⟨claimed, computed, rfl⟩, map'.slot, latest⟩

end TptProto.Codegen
