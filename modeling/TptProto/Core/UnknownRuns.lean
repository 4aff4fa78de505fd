import TptProto.Core.UnknownMerge
import TptProto.Core.FieldLoop
import TptProto.Foundation.Trace

/-! Runs of operations on an unknown-field set: the length that it caches, and what a store that fails
leaves behind. -/

namespace TptProto.Core.UnknownFieldSet

open TptProto.Foundation

section Operations

/-- The operations that change a set. -/
inductive Op where
  | insert (number : UInt32) (value : UnknownValue)
  | store (tag : Tag) (reader : Reader)
  | mergeFrom (other : { set : UnknownFieldSet // Built set })

def Op.apply (set : UnknownFieldSet) : Op → UnknownFieldSet
  | insert number value => set.insert number value
  | store tag reader => (set.store tag reader).1
  | mergeFrom other => set.mergeFrom other

def Step (set : UnknownFieldSet) (op : Op) (next : UnknownFieldSet) : Prop := next = op.apply set

/-- The operation stores from a cursor with this limit on unknown bytes. -/
def Op.StoresUnder (cap : Option Nat) : Op → Prop
  | store _ reader => reader.limits.maxUnknownBytes = cap
  | insert _ _ | mergeFrom _ => False

/-- After any of the operations the set is encoded in as many bytes as it caches, and stores that fail
leave it as it was. Where there are only stores under one limit, it never exceeds the limit. -/
structure Accounted (ops : List Op) : Prop where
  lengths : ∀ before after set, ops = before ++ after → Trace Step empty before set →
    ∃ bytes, encode (ε := Error) set = .ok bytes ∧ bytes.length = set.encodedLen
  atomic : ∀ before tag reader after set, ops = before ++ .store tag reader :: after →
    Trace Step empty before set → (∀ r', (set.store tag reader).2 ≠ .ok r') →
      (set.store tag reader).1 = set
  capped : ∀ cap, (∀ op ∈ ops, op.StoresUnder cap) → ∀ before after set, ops = before ++ after →
    Trace Step empty before set → DecoderLimits.within cap set.encodedLen = true

/-- No value is held under the number 0. -/
def Numbered (set : UnknownFieldSet) : Prop := ∀ field ∈ set.fields, field.1 ≠ 0

/-- The value that the cursor holds for the tag, if it holds one, fits under the limit with those that
are there. -/
def Fits (set : UnknownFieldSet) (tag : Tag) (reader : Reader) : Prop :=
  ∀ value r', readUnknownValue tag.wireType reader = .ok (value, r') →
    DecoderLimits.within reader.limits.maxUnknownBytes
      (set.encodedLen + (tagLen tag.fieldNumber + valueLen value)) = true

/-- Nothing is put under the number 0, and what is stored fits. -/
def Op.Allowed (set : UnknownFieldSet) : Op → Prop
  | insert number _ => number ≠ 0
  | store tag reader => Fits set tag reader
  | mergeFrom other => Numbered other

end Operations

section Lengths

variable {set : UnknownFieldSet}

/-- A value under another number than 0 is written in as many bytes as are counted for it. -/
private theorem writeValue_length {ε : Type} {field : UInt32} (nonzero : field ≠ 0) (value : UnknownValue) :
    ∃ bytes, writeValue (ε := ε) field value = .ok bytes ∧ bytes.length = tagLen field + valueLen value := by
  have made : Tag.new field value.wireType = some ⟨field, value.wireType, nonzero⟩ :=
    Tag.new_eq_some.mpr ⟨rfl, rfl⟩
  refine ⟨encodeVarint (Tag.raw field value.wireType) ++ value.bytes, ?_, ?_⟩
  · rw [writeValue, writeTag, made]
    rfl
  · rw [List.length_append, tagLen_eq field value.wireType, valueLen_eq]

private theorem writeEach_length {α ε : Type} {write : α → Outcome ε (List UInt8)} {size : α → Nat}
    {items : List α} (each : ∀ item ∈ items, ∃ bytes, write item = .ok bytes ∧ bytes.length = size item) :
    ∃ bytes, writeEach write items = .ok bytes ∧ bytes.length = (items.map size).sum := by
  induction items with
  | nil => exact ⟨[], rfl, rfl⟩
  | cons item rest ih =>
    obtain ⟨head, written, length⟩ := each item List.mem_cons_self
    obtain ⟨tail, later, lengths⟩ := ih fun other member => each other (List.mem_cons_of_mem _ member)
    refine ⟨head ++ tail, by rw [writeEach, written, later]; rfl, ?_⟩
    rw [List.length_append, length, lengths, List.map_cons, List.sum_cons]

/-- A set is encoded if and only if it holds nothing under the number 0, and then in as many bytes as
it caches. -/
theorem Canonical.encode_iff (canonical : set.Canonical) :
    (∃ bytes, encode (ε := Error) set = .ok bytes ∧ bytes.length = set.encodedLen) ↔ set.Numbered := by
  constructor
  · rintro ⟨bytes, encoded, _⟩ field member zero
    obtain ⟨part, written⟩ := writeEach_isOk_iff.mp ⟨bytes, encoded⟩ field member
    obtain ⟨value, inside⟩ := List.exists_mem_of_ne_nil _ (canonical.nonempty field member)
    obtain ⟨_, impossible⟩ := writeEach_isOk_iff.mp ⟨part, written⟩ value inside
    rw [zero] at impossible
    cases impossible
  · intro numbered
    have bucket : ∀ field ∈ set.fields, ∃ bytes,
        writeEach (writeValue (ε := Error) field.1) field.2 = .ok bytes ∧
          bytes.length = (field.2.map fun value => tagLen field.1 + valueLen value).sum :=
      fun field member => writeEach_length fun value _ => writeValue_length (numbered field member) value
    obtain ⟨bytes, encoded, length⟩ := writeEach_length bucket
    refine ⟨bytes, encoded, ?_⟩
    rw [length, encodedLen, canonical.total, entriesLen, entries]
    generalize set.fields = fields
    induction fields with
    | nil => rfl
    | cons field rest ih =>
      simp only [List.map_cons, List.sum_cons, List.flatMap_cons, List.map_append, List.sum_append, ih,
        List.map_map, Function.comp_def]

end Lengths

section Numbers

variable {set other : UnknownFieldSet} {number : UInt32}

private theorem numbered_iff : set.Numbered ↔ SortedMap.get? set.fields 0 = none := by
  rw [SortedMap.get?_eq_none_iff]
  rfl

theorem insert_numbered_iff {value : UnknownValue} :
    (set.insert number value).Numbered ↔ set.Numbered ∧ number ≠ 0 := by
  rw [numbered_iff, numbered_iff, UnknownFieldSet.insert, SortedMap.get?_upsert set.sorted]
  by_cases zero : number = 0
  · simp [zero]
  · simp [zero, Ne.symm zero]

theorem mergeFrom_numbered_iff : (set.mergeFrom other).Numbered ↔ set.Numbered ∧ other.Numbered := by
  rw [numbered_iff, numbered_iff, numbered_iff, get?_mergeFrom]
  cases SortedMap.get? other.fields 0 <;> simp [mergedBucket]

/-- What a store leaves: the set with the value that was read, or the set as it was. -/
theorem store_cases (set : UnknownFieldSet) (tag : Tag) (reader : Reader) :
    (∃ value r', readUnknownValue tag.wireType reader = .ok (value, r') ∧
        (set.store tag reader).1 = set.insert tag.fieldNumber value ∧
        ((∃ r'', (set.store tag reader).2 = .ok r'') ↔
          DecoderLimits.within r'.limits.maxUnknownBytes
            (set.encodedLen + (tagLen tag.fieldNumber + valueLen value)) = true)) ∨
      ((∀ value r', readUnknownValue tag.wireType reader ≠ .ok (value, r')) ∧
        (set.store tag reader).1 = set) := by
  unfold store
  cases read : readUnknownValue tag.wireType reader with
  | ok pair =>
    obtain ⟨value, r'⟩ := pair
    refine .inl ⟨value, r', rfl, rfl, ?_⟩
    simp only [Outcome.bind_eq_ok, DecoderLimits.checkUnknown, DecoderLimits.check_eq_ok, exists_const,
      Outcome.ok.injEq, exists_and_left, exists_eq', and_true]
    rfl
  | err | panic | outOfFuel => exact .inr ⟨nofun, rfl⟩

theorem store_numbered {tag : Tag} {reader : Reader} (numbered : set.Numbered) :
    (set.store tag reader).1.Numbered := by
  rcases store_cases set tag reader with ⟨value, r', _, same, _⟩ | ⟨_, same⟩
  · rw [same]
    exact insert_numbered_iff.mpr ⟨numbered, tag.nonzero⟩
  · rw [same]
    exact numbered

/-- Reading a value leaves the limits as they are. -/
private theorem readUnknownValue_limits {wireType : WireType} {reader r' : Reader} {value : UnknownValue}
    (read : readUnknownValue wireType reader = .ok (value, r')) : r'.limits = reader.limits := by
  cases wireType with
  | varint =>
    simp only [readUnknownValue, Outcome.bind_eq_ok, Prod.exists, Outcome.ok.injEq, Prod.mk.injEq] at read
    obtain ⟨_, _, moved, _, rfl⟩ := read
    exact (Reader.readVarint_kept moved).limits
  | fixed32 =>
    simp only [readUnknownValue, Outcome.bind_eq_ok, Prod.exists, Outcome.ok.injEq, Prod.mk.injEq] at read
    obtain ⟨_, _, moved, _, rfl⟩ := read
    exact (Reader.readFixed32_kept moved).limits
  | fixed64 =>
    simp only [readUnknownValue, Outcome.bind_eq_ok, Prod.exists, Outcome.ok.injEq, Prod.mk.injEq] at read
    obtain ⟨_, _, moved, _, rfl⟩ := read
    exact (Reader.readFixed64_kept moved).limits
  | lengthDelimited =>
    simp only [readUnknownValue, Outcome.bind_eq_ok, Prod.exists, Outcome.ok.injEq, Prod.mk.injEq] at read
    obtain ⟨_, _, moved, _, rfl⟩ := read
    exact (Reader.readLengthDelimited_kept moved).limits
  | startGroup | endGroup => cases read

theorem tagLen_pos (field : UInt32) : 0 < tagLen field := by
  rw [tagLen_eq field .varint]
  exact (encodeVarint_length_bounds _).1

end Numbers

section Runs

variable {ops before after : List Op} {set : UnknownFieldSet}

theorem run_built {start : UnknownFieldSet} (built : Built start) (run : Trace Step start before set) :
    Built set := by
  have free : Throughout Step (fun _ _ => True) start before := fun _ _ _ _ _ _ => trivial
  refine run.invariant free built fun set op next built _ taken => ?_
  cases taken
  cases op with
  | insert number value => exact built.insert number value
  | store tag reader => exact built.store tag reader
  | mergeFrom other => exact built.mergeFrom other.2

private theorem allowed_numbered {op : Op} (numbered : set.Numbered) (allowed : op.Allowed set) :
    (op.apply set).Numbered := by
  cases op with
  | insert number value => exact insert_numbered_iff.mpr ⟨numbered, allowed⟩
  | store tag reader => exact store_numbered numbered
  | mergeFrom other => exact mergeFrom_numbered_iff.mpr ⟨numbered, allowed⟩

private theorem numbered_allowed {op : Op} (numbered : (op.apply set).Numbered)
    (atomic : ∀ tag reader, op = .store tag reader → (∀ r', (set.store tag reader).2 ≠ .ok r') →
      (set.store tag reader).1 = set) : op.Allowed set := by
  cases op with
  | insert number value => exact (insert_numbered_iff.mp numbered).2
  | mergeFrom other => exact (mergeFrom_numbered_iff.mp numbered).2
  | store tag reader =>
    intro value r' read
    rcases store_cases set tag reader with ⟨value', r'', read', same, fits⟩ | ⟨none, _⟩
    · cases read.symm.trans read'
      rw [← readUnknownValue_limits read]
      apply Classical.byContradiction
      intro tooLarge
      have failed : ∀ r'', (set.store tag reader).2 ≠ .ok r'' :=
        fun r'' stored => tooLarge (fits.mp ⟨r'', stored⟩)
      have grown := congrArg totalLen (same.symm.trans (atomic tag reader rfl failed))
      have positive := tagLen_pos tag.fieldNumber
      simp only [UnknownFieldSet.insert] at grown
      omega
    · exact absurd read (none value r')

/-- Where every step is allowed, a store within the limit stays within it. -/
private theorem allowed_within {cap : Option Nat} {op : Op} (stores : op.StoresUnder cap)
    (within : DecoderLimits.within cap set.encodedLen = true) (allowed : op.Allowed set) :
    DecoderLimits.within cap (op.apply set).encodedLen = true := by
  cases op with
  | insert | mergeFrom => cases stores
  | store tag reader =>
    change DecoderLimits.within cap (set.store tag reader).1.encodedLen = true
    rcases store_cases set tag reader with ⟨value, r', read, same, _⟩ | ⟨_, same⟩
    · rw [same]
      have fits := allowed value r' read
      rw [stores] at fits
      exact fits
    · rw [same]
      exact within

/-- In every run, the cached length is that of the encoding, failed stores change nothing and stores
under one limit keep to it, if and only if every step of the run puts nothing under the number 0 and
stores only what fits. -/
theorem unknown_accounted_iff (ops : List Op) :
    Accounted ops ↔ Throughout Step (fun set op => op.Allowed set) empty ops := by
  constructor
  · intro accounted before op after set split run
    have canonical := (run_built .empty (Trace.append_iff.mpr ⟨set, run, .cons rfl (.nil _)⟩) :
      Built (op.apply set)).canonical
    have encoded := accounted.lengths (before ++ [op]) after (op.apply set)
      (by rw [split, List.append_assoc]; rfl)
      (Trace.append_iff.mpr ⟨set, run, .cons rfl (.nil _)⟩)
    apply numbered_allowed (canonical.encode_iff.mp encoded)
    rintro tag reader rfl
    exact accounted.atomic before tag reader after set split run
  · intro all
    refine ⟨fun before after set split run => ?_, fun before tag reader after set split run failed => ?_,
      fun cap stores before after set split run => ?_⟩
    · have canonical := (run_built .empty run).canonical
      subst split
      apply canonical.encode_iff.mpr
      refine run.invariant all.before nofun fun set op next numbered allowed taken => ?_
      cases taken
      exact allowed_numbered numbered allowed
    · have fits := all before (.store tag reader) after set split run
      rcases store_cases set tag reader with ⟨value, r', read, _, stored⟩ | ⟨_, same⟩
      · have within := fits value r' read
        rw [← readUnknownValue_limits read] at within
        obtain ⟨r'', done⟩ := stored.mpr within
        exact absurd done (failed r'')
      · exact same
    · subst split
      have both : Throughout Step (fun set op => op.StoresUnder cap ∧ op.Allowed set) empty before :=
        fun first op rest s same reached =>
          ⟨stores op (by simp [same]), all.before first op rest s same reached⟩
      have start : DecoderLimits.within cap empty.encodedLen = true := by
        cases cap with
        | none => rfl
        | some most => exact decide_eq_true (Nat.zero_le most)
      refine @Trace.invariant _ _ _ _ (fun set => DecoderLimits.within cap set.encodedLen = true) _ _ _
        run both start ?_
      intro set op next within meets taken
      cases taken
      exact allowed_within meets.1 within meets.2

end Runs

/-- A limit of one byte, and a value of two. -/
private def oneByte : Reader :=
  .withLimits ⟨[0x05], by decide⟩ { DecoderLimits.default with maxUnknownBytes := some 1 }

private def varintTag : Tag := ⟨1, .varint, Tag.nonzero_one⟩

/-- A store over the limit fails and keeps the value, and a set with the number 0 is not encoded. -/
theorem not_unknown_accounted :
    ¬ Accounted [.store varintTag oneByte] ∧ ¬ Accounted [.insert 0 (.varint 5)] := by
  constructor
  · intro accounted
    have failed : (empty.store varintTag oneByte).2 = .err (.limitExceeded "max_unknown_bytes") := rfl
    have same := accounted.atomic [] varintTag oneByte [] empty rfl (.nil _) (by rw [failed]; exact nofun)
    have grown : (empty.store varintTag oneByte).1.encodedLen = 2 := rfl
    rw [same] at grown
    cases grown
  · intro accounted
    obtain ⟨bytes, encoded, _⟩ := accounted.lengths [.insert 0 (.varint 5)] [] _ rfl (.cons rfl (.nil _))
    cases encoded

end TptProto.Core.UnknownFieldSet
