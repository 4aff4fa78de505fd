import TptProto.Core.Table
import TptProto.Core.FieldLoop

/-! What a table's decoders make of written items: an item that an arm takes acts on the
message, and written items that the limits admit act one after another. Where an arm takes
every item, they act exactly when the limits admit them. -/

namespace TptProto.Core

open TptProto.Foundation

namespace Opening

/-- The limits and the depth of the reader that an arm opens. -/
def limits (opening : Opening) (around : DecoderLimits) : DecoderLimits :=
  match opening with
  | .nested => around
  | .fresh => .default

def depth (opening : Opening) (around : UInt32) : UInt32 :=
  match opening with
  | .nested => around + 1
  | .fresh => 0

/-- The reader an arm opens, from the limits and the depth of the cursor alone. -/
def openAt (opening : Opening) (limits : DecoderLimits) (depth : UInt32) (body : Slice) :
    Result Reader :=
  match opening with
  | .nested => Reader.nestedAt limits depth body
  | .fresh => .ok (Reader.new body)

theorem open_eq (opening : Opening) (r : Reader) (body : Slice) :
    opening.open r body = opening.openAt r.limits r.depth body := by
  cases opening <;> rfl

theorem openAt_ok (opening : Opening) {limits : DecoderLimits} {depth : UInt32} (body : Slice)
    (shallow : opening = .nested → depth + 1 ≤ limits.maxDepth) :
    ∃ sub, opening.openAt limits depth body = .ok sub ∧ sub.AtStart ∧ sub.buf = body ∧
      sub.limits = opening.limits limits ∧ sub.depth = opening.depth depth := by
  cases opening with
  | nested =>
    exact ⟨_, Reader.nestedAt_eq_ok_iff.mpr ⟨shallow rfl, rfl⟩, ⟨rfl, rfl, rfl⟩, rfl, rfl, rfl⟩
  | fresh => exact ⟨_, rfl, ⟨rfl, rfl, rfl⟩, rfl, rfl, rfl⟩

end Opening

/-- The wire type of the values that an arm reads. -/
def Arm.wireType {Kind : Type} {Data : Kind → Type} {D : Type} : Arm Data D → WireType
  | .string _ | .bytes _ | .message _ _ _ => .lengthDelimited
  | .int32 _ | .int64 _ | .uint32 _ | .uint64 _ | .bool _ => .varint
  | .float _ => .fixed32
  | .double _ => .fixed64

namespace Table

variable {T : Table}

section Taking

/-- What an arm does with a value of its wire type. -/
def takeArm {D : Type} (recurse : T.Recurse) (arm : Arm T.Data D) (limits : DecoderLimits)
    (depth : UInt32) (self : D) (value : UnknownValue) : Result D :=
  match arm, value with
  | .string set, .lengthDelimited body => do
    limits.checkString body.length
    let text ← Outcome.ofOption (.utf8Error (validUpTo body)) (fromUtf8 body)
    .ok (set text self)
  | .bytes set, .lengthDelimited body => .ok (set body self)
  | .int32 set, .varint word => .ok (set (wordInt32 word) self)
  | .int64 set, .varint word => .ok (set word.toInt64 self)
  | .uint32 set, .varint word => .ok (set word.toUInt32 self)
  | .uint64 set, .varint word => .ok (set word self)
  | .bool set, .varint word => .ok (set (word != 0) self)
  | .float set, .fixed32 word => .ok (set word self)
  | .double set, .fixed64 word => .ok (set word self)
  | .message opening kind set, .lengthDelimited body => do
    let sub ← opening.openAt limits depth (.ofBytes body)
    let value ← recurse kind sub
    .ok (set value self)
  | _, _ => .err (.unexpectedWireType value.wireType.asU8)

/-- What an item that an arm takes does to the message. -/
def take (recurse : T.Recurse) (kind : T.Kind) (limits : DecoderLimits) (depth : UInt32)
    (self : T.Data kind) (item : Item) : Result (T.Data kind) :=
  match T.arms kind item.tag.fieldNumber item.tag.wireType with
  | some arm => takeArm recurse arm limits depth self item.value
  | none => .err (.invalidTag item.tag.fieldNumber)

variable {recurse : T.Recurse} {kind : T.Kind}

theorem runArm_of_take {D : Type} {arm : Arm T.Data D} {self self' : D} {r r' : Reader}
    {wireType : WireType} {value : UnknownValue}
    (read : readUnknownValue wireType r = .ok (value, r'))
    (taken : takeArm recurse arm r'.limits r'.depth self value = .ok self') :
    runArm recurse arm self r = .ok (self', r') := by
  cases value with
  | varint word =>
    cases wireType with
    | varint =>
      simp only [readUnknownValue, Outcome.bind_eq_ok, Prod.exists, Outcome.ok.injEq,
        Prod.mk.injEq, UnknownValue.varint.injEq] at read
      obtain ⟨_, _, source, rfl, rfl⟩ := read
      cases arm with
      | int32 set | int64 set | uint32 set | uint64 set | bool set =>
        cases taken
        simp only [runArm, Reader.readInt32, Reader.readInt64, Reader.readUint32, Reader.readUint64,
          Reader.readBool, Reader.readAs, source, Outcome.ok_bind]
      | _ => cases taken
    | _ => simp [readUnknownValue, Outcome.bind_eq_ok] at read
  | fixed32 word =>
    cases wireType with
    | fixed32 =>
      simp only [readUnknownValue, Outcome.bind_eq_ok, Prod.exists, Outcome.ok.injEq,
        Prod.mk.injEq, UnknownValue.fixed32.injEq] at read
      obtain ⟨_, _, source, rfl, rfl⟩ := read
      cases arm with
      | float set =>
        cases taken
        simp only [runArm, Reader.readFloat, source, Outcome.ok_bind]
      | _ => cases taken
    | _ => simp [readUnknownValue, Outcome.bind_eq_ok] at read
  | fixed64 word =>
    cases wireType with
    | fixed64 =>
      simp only [readUnknownValue, Outcome.bind_eq_ok, Prod.exists, Outcome.ok.injEq,
        Prod.mk.injEq, UnknownValue.fixed64.injEq] at read
      obtain ⟨_, _, source, rfl, rfl⟩ := read
      cases arm with
      | double set =>
        cases taken
        simp only [runArm, Reader.readDouble, source, Outcome.ok_bind]
      | _ => cases taken
    | _ => simp [readUnknownValue, Outcome.bind_eq_ok] at read
  | lengthDelimited body =>
    cases wireType with
    | lengthDelimited =>
      simp only [readUnknownValue, Outcome.bind_eq_ok, Prod.exists, Outcome.ok.injEq,
        Prod.mk.injEq, UnknownValue.lengthDelimited.injEq] at read
      obtain ⟨slice, _, source, rfl, rfl⟩ := read
      cases arm with
      | string set =>
        simp only [takeArm, Outcome.bind_eq_ok, Outcome.ok.injEq] at taken
        obtain ⟨_, short, text, decoded, rfl⟩ := taken
        simp only [runArm, Reader.readStringOwned, source, Outcome.ok_bind, Slice.length, short,
          decoded]
      | bytes set =>
        cases taken
        simp only [runArm, source, Outcome.ok_bind]
      | message opening child set =>
        simp only [takeArm, Slice.ofBytes_bytes, Outcome.bind_eq_ok, Outcome.ok.injEq] at taken
        obtain ⟨sub, opened, value, decoded, rfl⟩ := taken
        simp only [runArm, source, Outcome.ok_bind, Opening.open_eq, opened, decoded]
      | _ => cases taken
    | _ => simp [readUnknownValue, Outcome.bind_eq_ok] at read

/-- What an item does to the message: an arm takes it, or it is skipped. -/
def pass (recurse : T.Recurse) (kind : T.Kind) (limits : DecoderLimits) (depth : UInt32)
    (self : T.Data kind) (item : Item) : Result (T.Data kind) :=
  match T.arms kind item.tag.fieldNumber item.tag.wireType with
  | some arm => takeArm recurse arm limits depth self item.value
  | none => .ok self

theorem pass_of_take {limits : DecoderLimits} {depth : UInt32} {self next : T.Data kind} {item : Item}
    (taken : take recurse kind limits depth self item = .ok next) :
    pass recurse kind limits depth self item = .ok next := by
  unfold take at taken
  unfold pass
  cases found : T.arms kind item.tag.fieldNumber item.tag.wireType with
  | some arm => rwa [found] at taken
  | none =>
    rw [found] at taken
    cases taken

/-- A pass over an item is one of the decoder. -/
theorem mergeStep_of_pass {state next : T.Data kind × Reader}
    (moved : fieldStep id Tag.wireType (pass recurse kind) state = .ok next) :
    mergeStep recurse kind state = .ok next := by
  simp only [fieldStep, Outcome.mapErr_id, Outcome.bind_eq_ok, Prod.exists, Outcome.ok.injEq]
    at moved
  obtain ⟨tag, r, readTag, value, r', readValue, self', passed, rfl⟩ := moved
  cases found : T.arms kind tag.fieldNumber tag.wireType with
  | some arm =>
    simp only [pass, found] at passed
    simp only [mergeStep, readTag, Outcome.ok_bind, found]
    exact runArm_of_take readValue passed
  | none =>
    simp only [pass, found, Outcome.ok.injEq] at passed
    subst passed
    simp only [mergeStep, readTag, Outcome.ok_bind, found, Reader.skip, skipInner_of_read readValue]

/-- Items within the budgets are decoded to what they do in turn. -/
theorem decode_passes {r : Reader} (solvent : r.Solvent) {items : List Item} {final : T.Data kind}
    (wire : Items Tag.wireType items r.rest) (affords : Affords r items)
    (folded : items.foldlM (pass decode kind r.limits r.depth) (T.start kind) = .ok final) :
    decode kind r = .ok final := by
  obtain ⟨r', drained⟩ :=
    (drain_fieldStep_eq_ok_iff id solvent).mpr ⟨items, wire, affords, folded⟩
  obtain ⟨visited, run, bound⟩ := loop_eq_ok_iff.mp drained
  have looped : r.drain (mergeStep decode kind) (T.start kind) = .ok (final, r') :=
    loop_eq_ok_iff.mpr ⟨visited, run.mono fun _ _ => mergeStep_of_pass, bound⟩
  rw [decode_eq, mergeWith, looped, Outcome.ok_bind]

theorem decode_items {r : Reader} (start : r.AtStart) {items : List Item} {final : T.Data kind}
    (wire : Items Tag.wireType items r.rest) (affords : Affords r items)
    (folded : items.foldlM (take decode kind r.limits r.depth) (T.start kind) = .ok final) :
    decode kind r = .ok final :=
  decode_passes start.solvent wire affords
    (Outcome.foldlM_mono (fun _ _ _ taken => pass_of_take taken) folded)

end Taking

section Limits

variable (T)

/-- The bytes of a message are within the limits, and so are those of the messages in it. -/
inductive WithinLimits : DecoderLimits → UInt32 → T.Kind → List UInt8 → Prop where
  | intro {limits : DecoderLimits} {depth : UInt32} {kind : T.Kind} {bytes : List UInt8}
      (items : List Item) (wire : Items Tag.wireType items bytes)
      (total : DecoderLimits.within limits.maxBytes bytes.length = true)
      (fields : DecoderLimits.within limits.maxFields items.length = true)
      (lengths : ∀ item ∈ items, item.value.Fits limits)
      (strings : ∀ item ∈ items, ∀ set,
        T.arms kind item.tag.fieldNumber item.tag.wireType = some (.string set) →
        DecoderLimits.within limits.maxStringLen item.value.payload.length = true)
      (depths : ∀ item ∈ items, ∀ child set,
        T.arms kind item.tag.fieldNumber item.tag.wireType = some (.message .nested child set) →
        depth + 1 ≤ limits.maxDepth)
      (bodies : ∀ item ∈ items, ∀ opening child set,
        T.arms kind item.tag.fieldNumber item.tag.wireType = some (.message opening child set) →
        WithinLimits (opening.limits limits) (opening.depth depth) child item.value.payload) :
      WithinLimits limits depth kind bytes

variable {T} in
theorem WithinLimits.total {limits : DecoderLimits} {depth : UInt32} {kind : T.Kind}
    {bytes : List UInt8} (within : T.WithinLimits limits depth kind bytes) :
    DecoderLimits.within limits.maxBytes bytes.length = true := by
  cases within with
  | intro _ _ total => exact total

/-- What memory and the limits ask of one item. -/
structure Admits (limits : DecoderLimits) (depth : UInt32) (kind : T.Kind) (item : Item) : Prop where
  sized : item.value.payload.length < 2 ^ 63
  length : item.value.Fits limits
  string : ∀ set, T.arms kind item.tag.fieldNumber item.tag.wireType = some (.string set) →
    DecoderLimits.within limits.maxStringLen item.value.payload.length = true
  shallow : ∀ child set,
    T.arms kind item.tag.fieldNumber item.tag.wireType = some (.message .nested child set) →
    depth + 1 ≤ limits.maxDepth
  body : ∀ opening child set,
    T.arms kind item.tag.fieldNumber item.tag.wireType = some (.message opening child set) →
    T.WithinLimits (opening.limits limits) (opening.depth depth) child item.value.payload

end Limits

section Writing

variable (T) in
/-- What is written is read as a step from one message to another, within the limits. -/
def Writes (limits : DecoderLimits) (depth : UInt32) (kind : T.Kind) (written : Result (List UInt8))
    (before after : T.Data kind) : Prop :=
  ∃ items : List Item, written = .ok (items.flatMap Item.written) ∧
    (∀ item ∈ items, item.tag.fieldNumber.toNat < 2 ^ 29 ∧
      item.value.wireType = item.tag.wireType) ∧
    ((∀ item ∈ items, T.Admits limits depth kind item) →
      items.foldlM (take decode kind limits depth) before = .ok after)

variable {limits : DecoderLimits} {depth : UInt32} {kind : T.Kind} {before middle after : T.Data kind}

theorem Writes.nothing : T.Writes limits depth kind (.ok []) before before :=
  ⟨[], rfl, by simp, fun _ => rfl⟩

theorem Writes.append {head tail : Result (List UInt8)}
    (first : T.Writes limits depth kind head before middle)
    (second : T.Writes limits depth kind tail middle after) :
    T.Writes limits depth kind (head >>= fun h => tail >>= fun t => .ok (h ++ t)) before after := by
  obtain ⟨items, rfl, plain, folds⟩ := first
  obtain ⟨items', rfl, plain', folds'⟩ := second
  refine ⟨items ++ items', ?_, List.forall_mem_append.mpr ⟨plain, plain'⟩, fun admitted => ?_⟩
  · simp only [Outcome.ok_bind, List.flatMap_append]
  · obtain ⟨here, there⟩ := List.forall_mem_append.mp admitted
    rw [List.foldlM_append, folds here]
    exact folds' there

/-- Parts written one after another are steps one after another. -/
theorem Writes.each {α : Type} {write : α → Result (List UInt8)} (into : List α → T.Data kind)
    {items : List α} (step : ∀ x ∈ items, ∀ done,
      T.Writes limits depth kind (write x) (into done) (into (done ++ [x]))) (done : List α) :
    T.Writes limits depth kind (writeEach write items) (into done) (into (done ++ items)) := by
  induction items generalizing done with
  | nil =>
    rw [List.append_nil]
    exact Writes.nothing
  | cons x rest ih =>
    have later := ih (fun y member => step y (List.mem_cons_of_mem _ member)) (done ++ [x])
    rw [List.append_assoc, List.singleton_append] at later
    exact (step x List.mem_cons_self done).append later

/-- One written item is the step its arm takes. -/
theorem Writes.item {arm : Arm T.Data (T.Data kind)} {number : UInt32} {value : UnknownValue}
    (nonzero : number ≠ 0) (small : number.toNat < 2 ^ 29)
    (found : T.arms kind number value.wireType = some arm)
    (taken : T.Admits limits depth kind ⟨⟨number, value.wireType, nonzero⟩, value⟩ →
      takeArm decode arm limits depth before value = .ok after) :
    T.Writes limits depth kind (writeValue number value) before after := by
  refine ⟨[⟨⟨number, value.wireType, nonzero⟩, value⟩], ?_, by simpa using small, fun admitted => ?_⟩
  · rw [writeValue, writeTag_eq nonzero]
    simp [Item.written]
  · rw [List.foldlM_cons, take, found]
    simp only
    rw [taken (admitted _ List.mem_cons_self)]
    rfl

theorem payload_le {items : List Item} {item : Item} (member : item ∈ items) :
    item.value.payload.length ≤ (items.flatMap Item.written).length := by
  have inside : item.written.length ≤ (items.flatMap Item.written).length := by
    obtain ⟨earlier, later, rfl⟩ := List.append_of_mem member
    simp only [List.flatMap_append, List.flatMap_cons, List.length_append]
    omega
  have tail : item.value.payload.length ≤ item.value.bytes.length := by
    cases item.value <;> simp [UnknownValue.payload, UnknownValue.bytes, writeLengthDelimited]
  have whole : item.written.length = item.tag.encode.length + item.value.bytes.length :=
    List.length_append
  omega

theorem payload_lt {items : List Item} {r : Reader}
    (rest : r.rest = items.flatMap Item.written) {item : Item} (member : item ∈ items) :
    item.value.payload.length < 2 ^ 63 := by
  have short := payload_le member
  rw [← rest, r.rest_length, Reader.remaining] at short
  have bound := r.buf.length_lt_usize
  omega

/-- Items in a buffer are short enough to be read back. -/
theorem items_of_plain {items : List Item} {r : Reader}
    (plain : ∀ item ∈ items, item.tag.fieldNumber.toNat < 2 ^ 29 ∧
      item.value.wireType = item.tag.wireType)
    (rest : r.rest = items.flatMap Item.written) : Items Tag.wireType items r.rest := by
  rw [rest]
  refine items_written fun item member => ⟨(plain item member).1, (plain item member).2, ?_⟩
  have short := payload_lt rest member
  cases held : item.value with
  | lengthDelimited body =>
    rw [held, UnknownValue.payload] at short
    simp only [UnknownValue.Sized]
    omega
  | _ => trivial

/-- A message written from its start is decoded, wherever its bytes are within the limits. -/
theorem Writes.decode {written : Result (List UInt8)}
    (writes : T.Writes limits depth kind written (T.start kind) after) :
    ∃ bytes, written = .ok bytes ∧ ∀ r : Reader, r.AtStart → r.limits = limits → r.depth = depth →
      r.rest = bytes → T.WithinLimits limits depth kind bytes → decode kind r = .ok after := by
  obtain ⟨items, rfl, plain, folds⟩ := writes
  refine ⟨_, rfl, fun r start sameLimits sameDepth rest within => ?_⟩
  subst sameLimits sameDepth
  have sized : ∀ item ∈ items, item.value.payload.length < 2 ^ 63 :=
    fun item member => payload_lt rest member
  have wire : Items Tag.wireType items r.rest := items_of_plain plain rest
  cases within with
  | intro items' wire' total fields lengths strings depths bodies =>
    rw [← rest] at wire'
    obtain rfl := wire.unique (item_delimited _) wire'
    refine decode_items start wire ⟨lengths, ?_, ?_⟩ (folds fun item member =>
      ⟨sized item member, lengths item member, strings item member, depths item member, bodies item member⟩)
    · rw [start.bytesRead, Nat.zero_add, rest]
      exact total
    · rw [start.fieldCount, Nat.zero_add, Nat.mul_one]
      exact fields

/-- What is written from the start is given back by `Message::decode`, within the default limits. -/
theorem Writes.decodeBytes {written : Result (List UInt8)}
    (writes : T.Writes .default 0 kind written (T.start kind) after) :
    ∃ bytes, written = .ok bytes ∧
      (T.WithinLimits .default 0 kind bytes → Table.decodeBytes kind (.ofBytes bytes) = .ok after) := by
  obtain ⟨bytes, encoded, decodes⟩ := writes.decode
  refine ⟨bytes, encoded, fun within => ?_⟩
  have sized : bytes.length < 2 ^ 63 := by
    have total := within.total
    simp only [DecoderLimits.default, DecoderLimits.within, decide_eq_true_eq] at total
    omega
  rw [decodeBytes_eq]
  exact decodes _ (Reader.withLimits_atStart _ _) rfl rfl (Slice.bytes_ofBytes sized) within

/-- A written sub-message is the step of the arm that opens it. -/
theorem Writes.message {opening : Opening} {child : T.Kind} {number : UInt32}
    {set : T.Data child → T.Data kind → T.Data kind} {sub : T.Data child}
    {inner : Result (List UInt8)} (nonzero : number ≠ 0) (small : number.toNat < 2 ^ 29)
    (found : T.arms kind number .lengthDelimited = some (.message opening child set))
    (writes : T.Writes (opening.limits limits) (opening.depth depth) child inner (T.start child) sub)
    (sets : set sub before = after) :
    T.Writes limits depth kind (writeMessage number inner) before after := by
  subst sets
  obtain ⟨bytes, rfl, decodes⟩ := writes.decode
  have asItem : writeMessage number (.ok bytes) = writeValue (ε := Error) number
      (.lengthDelimited bytes) := rfl
  rw [asItem]
  refine Writes.item nonzero small found fun admitted => ?_
  have shallow : opening = .nested → depth + 1 ≤ limits.maxDepth := by
    rintro rfl
    exact admitted.shallow _ _ found
  obtain ⟨r, opened, start, buf, sameLimits, sameDepth⟩ := opening.openAt_ok (.ofBytes bytes) shallow
  have rest : r.rest = bytes := by
    have sized : bytes.length < 2 ^ 63 := admitted.sized
    rw [Reader.rest, buf, start.pos, List.drop_zero, Slice.bytes_ofBytes sized]
  have decoded := decodes r start sameLimits sameDepth rest (admitted.body _ _ _ found)
  simp only [takeArm, opened, Outcome.ok_bind, decoded]

section Scalars

variable {number : UInt32}

/-- A number that a tag can carry. -/
abbrev Carried (number : UInt32) : Prop := number ≠ 0 ∧ number.toNat < 2 ^ 29

theorem Writes.string {set : String → T.Data kind → T.Data kind} (carried : Carried number)
    (found : T.arms kind number .lengthDelimited = some (.string set)) (value : String)
    (sets : set value before = after) :
    T.Writes limits depth kind (encodeString number value) before after := by
  subst sets
  have asItem : encodeString number value =
      writeValue (ε := Error) number (.lengthDelimited (asBytes value)) := rfl
  rw [asItem]
  refine .item carried.1 carried.2 found fun admitted => ?_
  have short := admitted.string set found
  simp only [UnknownValue.payload] at short
  simp only [Table.takeArm, DecoderLimits.checkString, DecoderLimits.check, short, if_true,
    Outcome.ok_bind, fromUtf8_asBytes, Outcome.ofOption_some]

theorem Writes.int32 {set : Int32 → T.Data kind → T.Data kind} (carried : Carried number)
    (found : T.arms kind number .varint = some (.int32 set)) (value : Int32)
    (sets : set value before = after) :
    T.Writes limits depth kind (encodeInt32 number value) before after := by
  subst sets
  have asItem : encodeInt32 number value =
      writeValue (ε := Error) number (.varint (int32Word value)) := rfl
  rw [asItem]
  refine .item carried.1 carried.2 found fun _ => ?_
  rw [Table.takeArm, wordInt32_int32Word]

theorem Writes.bool {set : Bool → T.Data kind → T.Data kind} (carried : Carried number)
    (found : T.arms kind number .varint = some (.bool set)) (value : Bool)
    (sets : set value before = after) :
    T.Writes limits depth kind (encodeBool number value) before after := by
  subst sets
  have asItem : encodeBool number value =
      writeValue (ε := Error) number (.varint (boolWord value)) := rfl
  rw [asItem]
  refine .item carried.1 carried.2 found fun _ => ?_
  cases value <;> rfl

theorem Writes.double {set : UInt64 → T.Data kind → T.Data kind} (carried : Carried number)
    (found : T.arms kind number .fixed64 = some (.double set)) (bits : UInt64)
    (sets : set bits before = after) :
    T.Writes limits depth kind (writeValue number (.fixed64 bits)) before after := by
  subst sets
  exact .item carried.1 carried.2 found fun _ => rfl

end Scalars

end Writing

section Exact

variable {recurse : T.Recurse} {kind : T.Kind}

/-- An arm takes the value that it reads. -/
theorem runArm_eq {D : Type} (arm : Arm T.Data D) (self : D) (r : Reader) :
    runArm recurse arm self r = (do
      let (value, r) ← readUnknownValue arm.wireType r
      let next ← takeArm recurse arm r.limits r.depth self value
      .ok (next, r)) := by
  cases arm with
  | string set =>
    simp only [runArm, Reader.readStringOwned, Arm.wireType, readUnknownValue, bind_assoc,
      Outcome.ok_bind, takeArm]
    rfl
  | bytes set | int32 set | int64 set | uint32 set | uint64 set | bool set | float set | double set =>
    simp only [runArm, Reader.readInt32, Reader.readInt64, Reader.readUint32, Reader.readUint64,
      Reader.readBool, Reader.readAs, Reader.readFloat, Reader.readDouble, Arm.wireType,
      readUnknownValue, bind_assoc, Outcome.ok_bind, takeArm]
  | message opening child set =>
    simp only [runArm, Arm.wireType, readUnknownValue, bind_assoc, Outcome.ok_bind, takeArm,
      Slice.ofBytes_bytes, Opening.open_eq]

variable (T) in
/-- A tag of an arm that reads values of the tag's wire type. -/
def Typed (kind : T.Kind) (tag : Tag) : Prop :=
  ∃ arm, T.arms kind tag.fieldNumber tag.wireType = some arm ∧ arm.wireType = tag.wireType

/-- On typed tags a pass of the decoder reads an item and takes it. -/
theorem mergeStep_eq {state : T.Data kind × Reader}
    (typed : ∀ tag r, state.2.readTag = .ok (tag, r) → T.Typed kind tag) :
    mergeStep recurse kind state = fieldStep id Tag.wireType (pass recurse kind) state := by
  simp only [mergeStep, fieldStep, Outcome.mapErr_id]
  refine Outcome.bind_congr fun pair readTag => ?_
  obtain ⟨tag, r⟩ := pair
  obtain ⟨arm, found, natural⟩ := typed tag r readTag
  simp only [found, runArm_eq, natural, pass]

/-- The tag that is read is that of the first item. -/
theorem tag_of_readTag {r r' : Reader} {tag : Tag} {items : List Item} (solvent : r.Solvent)
    (wire : Items Tag.wireType items r.rest) (read : r.readTag = .ok (tag, r')) :
    ∃ item ∈ items, item.tag = tag := by
  obtain ⟨header, rest, raw, split, wireVarint, number, kind, _⟩ :=
    (Reader.readTag_wire solvent.tracked).mp read
  cases items with
  | nil =>
    rw [sequence_nil_iff.mp wire] at split
    have positive := wireVarint.length_pos
    rw [(List.nil_eq_append_iff.mp split).1] at positive
    cases positive
  | cons item later =>
    obtain ⟨_, tail, whole, ⟨tagBytes, raw', valueBytes, rfl, header', number', kind', _⟩, _⟩ :=
      sequence_cons_iff.mp wire
    rw [whole, List.append_assoc] at split
    obtain ⟨_, rfl, _⟩ := header'.unique wireVarint split
    exact ⟨item, List.mem_cons_self, Tag.ext (UInt32.toNat_inj.mp (number'.trans number.symm))
      (asU8_inj (kind'.trans kind.symm))⟩

variable (T) in
/-- What is left to read is a list of items of typed tags. -/
def TypedAhead (kind : T.Kind) (r : Reader) : Prop :=
  r.Solvent ∧ ∃ left, Items Tag.wireType left r.rest ∧ ∀ item ∈ left, T.Typed kind item.tag

private theorem TypedAhead.mergeStep_eq {state : T.Data kind × Reader}
    (ahead : T.TypedAhead kind state.2) :
    mergeStep recurse kind state = fieldStep id Tag.wireType (pass recurse kind) state := by
  obtain ⟨solvent, left, wire, typed⟩ := ahead
  refine Table.mergeStep_eq fun tag r' read => ?_
  obtain ⟨item, member, rfl⟩ := tag_of_readTag solvent wire read
  exact typed item member

private theorem TypedAhead.next {state next : T.Data kind × Reader}
    (ahead : T.TypedAhead kind state.2)
    (moved : fieldStep id Tag.wireType (pass recurse kind) state = .ok next) :
    T.TypedAhead kind next.2 := by
  obtain ⟨solvent, left, wire, typed⟩ := ahead
  obtain ⟨item, bytes, tail, split, head, _, _, advanced, solvent'⟩ :=
    (fieldStep_eq_ok_iff solvent).mp moved
  refine ⟨solvent', ?_⟩
  rw [advanced.rest_eq, split, List.drop_left]
  cases left with
  | nil =>
    rw [sequence_nil_iff.mp wire] at split
    have positive := head.length_pos
    rw [(List.nil_eq_append_iff.mp split).1] at positive
    cases positive
  | cons first later =>
    obtain ⟨_, rest, whole, firstOk, others⟩ := sequence_cons_iff.mp wire
    rw [whole] at split
    obtain ⟨_, _, rfl⟩ := firstOk.unique head split
    exact ⟨later, others, fun item member => typed item (List.mem_cons_of_mem _ member)⟩

/-- Items of typed tags are decoded exactly within the budgets and to what they do in turn. -/
theorem decode_eq_ok_iff {r : Reader} (solvent : r.Solvent) {items : List Item}
    {final : T.Data kind} (wire : Items Tag.wireType items r.rest)
    (typed : ∀ item ∈ items, T.Typed kind item.tag) :
    decode kind r = .ok final ↔
      Affords r items ∧ items.foldlM (pass decode kind r.limits r.depth) (T.start kind) = .ok final := by
  have looped : r.drain (mergeStep decode kind) (T.start kind) =
      r.drain (fieldStep id Tag.wireType (pass decode kind)) (T.start kind) := by
    refine loop_congr (fun state => T.TypedAhead kind state.2)
      (fun state ahead _ => ahead.mergeStep_eq) (fun state next ahead _ moved => ?_)
      ⟨solvent, items, wire, typed⟩
    rw [ahead.mergeStep_eq] at moved
    exact ahead.next moved
  have drained : decode kind r = .ok final ↔
      ∃ r', r.drain (fieldStep id Tag.wireType (pass decode kind)) (T.start kind) = .ok (final, r') := by
    rw [decode_eq, mergeWith, looped]
    simp only [Outcome.bind_eq_ok, Prod.exists, Outcome.ok.injEq]
    constructor
    · rintro ⟨_, r', run, rfl⟩
      exact ⟨r', run⟩
    · rintro ⟨r', run⟩
      exact ⟨_, r', run, rfl⟩
  rw [drained, drain_fieldStep_eq_ok_iff id solvent]
  constructor
  · rintro ⟨items', wire', affords, folded⟩
    obtain rfl := wire.unique (item_delimited _) wire'
    exact ⟨affords, folded⟩
  · rintro ⟨affords, folded⟩
    exact ⟨items, wire, affords, folded⟩

end Exact

end Table

end TptProto.Core
