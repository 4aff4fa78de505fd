import TptProto.Core.Occurrence
import TptProto.Codegen.Nesting

/-! Decoding a concatenation as a merge, in generated code. Explicit message fields are merged;
implicit ones and the messages of oneofs are replaced. -/

namespace TptProto.Codegen

open TptProto.Foundation TptProto.Core TptProto.Descriptor

/-- Arms that hold one message and read the next in its place. -/
def Arm.Replaces : Arm → Prop
  | .replace _ | .oneof _ (.message _) => True
  | _ => False

/-- The message such an arm would merge into. -/
def Arm.held (msg : Struct) (number : UInt32) : Arm → Option Struct
  | .replace _ =>
    match SortedMap.get? msg.fields number with
    | some (.implicit (.message m)) => some m
    | _ => none
  | .oneof index (.message _) =>
    match msg.oneofs[index]? with
    | some (some (variant, .message m)) => if variant = number then some m else none
    | _ => none
  | _ => none

/-- The effect of an arm that merges the messages it holds field by field. -/
def Arm.merge (recurse : Merge) (schema : Schema) (limits : DecoderLimits) (depth : UInt32)
    (msg : Struct) (number : UInt32) (wire : WireType) (value : UnknownValue) (arm : Arm) :
    Result Struct :=
  match arm, arm.held msg number with
  | .replace fqn, some m => do
    let sub ← Reader.nestedAt limits depth (.ofBytes value.payload)
    let m ← recurse fqn m sub
    .ok (msg.setSlot number (.implicit (.message m)))
  | .oneof index (.message fqn), some m => do
    let sub ← Reader.nestedAt limits depth (.ofBytes value.payload)
    let m ← recurse fqn m sub
    .ok (msg.setOneof index number (.message m))
  | arm, _ => arm.apply recurse schema limits depth msg number wire value

/-- Merging one item into a struct. -/
def mergeItem (schema : Schema) (arms : List (UInt32 × Arm)) (limits : DecoderLimits)
    (depth : UInt32) (msg : Struct) (item : Item) : Result Struct :=
  match SortedMap.get? arms item.tag.fieldNumber with
  | some arm =>
    arm.merge (GenMsg.mergeFrom schema) schema limits depth msg item.tag.fieldNumber
      item.tag.wireType item.value
  | none => do
    let unknown ← msg.unknown.keep limits item
    .ok { msg with unknown }

/-- Two ways to take in a second buffer, where the limits on bytes and fields allow both buffers
in one: reading both in one, and merging the second into the message of the first. -/
structure Merged (schema : Schema) (fqn : String) (limits : DecoderLimits) (whole second : Slice)
    (msg : Struct) (items : List Item) (final : Struct) : Prop where
  joined : GenMsg.decode schema fqn whole limits = .ok final ↔
    GenMsg.mergeFrom schema fqn msg (Reader.withLimits second limits) = .ok final
  fieldwise : GenMsg.mergeFrom schema fqn msg (Reader.withLimits second limits) = .ok final ↔
    items.foldlM (mergeItem schema (genArms schema (schema.messageOf fqn)) limits 0) msg = .ok final

def Concatenates (schema : Schema) (fqn : String) : Prop :=
  ∀ (first second whole : Slice) (limits : DecoderLimits) (msg later : Struct)
    (items items' : List Item),
    whole.bytes = first.bytes ++ second.bytes →
    GenMsg.decode schema fqn first limits = .ok msg →
    GenMsg.decode schema fqn second limits = .ok later →
    Items (mergeWire (genArms schema (schema.messageOf fqn))) items first.bytes →
    Items (mergeWire (genArms schema (schema.messageOf fqn))) items' second.bytes →
    Affords (Reader.withLimits whole limits) (items ++ items') →
    ∀ final, Merged schema fqn limits whole second msg items' final

/-- No arm of the message replaces one message by the next. -/
def ReplacesNothing (schema : Schema) (fqn : String) : Prop :=
  ∀ number arm, number ≠ 0 →
    SortedMap.get? (genArms schema (schema.messageOf fqn)) number = some arm → ¬ arm.Replaces

/-- The arms of every message type read one value each, under numbers that fit a tag. -/
structure Wellformed (schema : Schema) : Prop where
  regular : ∀ fqn, ∀ entry ∈ genArms schema (schema.messageOf fqn), entry.2.Regular
  numbered : ∀ fqn, ∀ entry ∈ genArms schema (schema.messageOf fqn), entry.1.toNat < 2 ^ 29

section Merge

variable {schema : Schema} {fqn : String}

theorem Arm.merge_eq {recurse : Merge} {limits : DecoderLimits} {depth : UInt32} {msg : Struct}
    {number : UInt32} {wire : WireType} {value : UnknownValue} {arm : Arm} (plain : ¬ arm.Replaces) :
    arm.merge recurse schema limits depth msg number wire value =
      arm.apply recurse schema limits depth msg number wire value := by
  cases arm with
  | replace fqn => exact absurd trivial plain
  | oneof index ty =>
    cases ty with
    | message fqn => exact absurd trivial plain
    | scalar | enum => rfl
  | assign | assignSome | mergeInto | push | byWireType | nothing | insertEntry => rfl

theorem mergeFrom_eq_ok_iff (wellformed : Wellformed schema) {msg final : Struct} {r : Reader}
    (solvent : r.Solvent) :
    GenMsg.mergeFrom schema fqn msg r = .ok final ↔
      ∃ items : List Item, Items (mergeWire (genArms schema (schema.messageOf fqn))) items r.rest ∧
        Affords r items ∧ items.foldlM (applyArm (GenMsg.mergeFrom schema) schema
          (genArms schema (schema.messageOf fqn)) r.limits r.depth) msg = .ok final := by
  rw [GenMsg.mergeFrom_eq, mergeWith_eq_ok_iff solvent (wellformed.regular fqn)]

theorem mergeItem_eq (replaces : ReplacesNothing schema fqn) (limits : DecoderLimits)
    (depth : UInt32) :
    mergeItem schema (genArms schema (schema.messageOf fqn)) limits depth =
      applyArm (GenMsg.mergeFrom schema) schema (genArms schema (schema.messageOf fqn)) limits
        depth := by
  funext msg item
  unfold mergeItem applyArm
  cases found : SortedMap.get? (genArms schema (schema.messageOf fqn)) item.tag.fieldNumber with
  | none => rfl
  | some arm => exact Arm.merge_eq (replaces _ _ item.tag.nonzero found)

/-- Reading two buffers in one is reading the second after the first. -/
theorem decode_joined (wellformed : Wellformed schema) {first second whole : Slice}
    {limits : DecoderLimits} {msg later final : Struct} {items items' : List Item}
    (joined : whole.bytes = first.bytes ++ second.bytes)
    (decoded : GenMsg.decode schema fqn first limits = .ok msg)
    (decoded' : GenMsg.decode schema fqn second limits = .ok later)
    (wire : Items (mergeWire (genArms schema (schema.messageOf fqn))) items first.bytes)
    (wire' : Items (mergeWire (genArms schema (schema.messageOf fqn))) items' second.bytes)
    (affords : Affords (Reader.withLimits whole limits) (items ++ items')) :
    (GenMsg.decode schema fqn whole limits = .ok final ↔
      items'.foldlM (applyArm (GenMsg.mergeFrom schema) schema
        (genArms schema (schema.messageOf fqn)) limits 0) msg = .ok final) ∧
    (GenMsg.mergeFrom schema fqn msg (Reader.withLimits second limits) = .ok final ↔
      items'.foldlM (applyArm (GenMsg.mergeFrom schema) schema
        (genArms schema (schema.messageOf fqn)) limits 0) msg = .ok final) := by
  have solvent (buf : Slice) := Reader.withLimits_solvent buf limits
  rw [GenMsg.decode, mergeFrom_eq_ok_iff wellformed (solvent _)] at decoded decoded'
  obtain ⟨itemsRead, wireRead, _, folded⟩ := decoded
  obtain ⟨itemsRead', wireRead', affords', _⟩ := decoded'
  obtain rfl := Sequence.unique (item_delimited _) wire wireRead
  obtain rfl := Sequence.unique (item_delimited _) wire' wireRead'
  rw [GenMsg.decode, mergeFrom_eq_ok_iff wellformed (solvent _),
    mergeFrom_eq_ok_iff wellformed (solvent _)]
  have wholeWire : Items (mergeWire (genArms schema (schema.messageOf fqn))) (items ++ items')
      whole.bytes := joined ▸ Sequence.append wire wire'
  constructor
  · constructor
    · rintro ⟨itemsWhole, wireWhole, _, foldedWhole⟩
      obtain rfl := Sequence.unique (item_delimited _) wholeWire wireWhole
      rw [List.foldlM_append, Outcome.bind_eq_ok] at foldedWhole
      obtain ⟨middle, before, after⟩ := foldedWhole
      obtain rfl := Outcome.ok.inj (folded.symm.trans before)
      exact after
    · intro carried
      refine ⟨_, wholeWire, affords, ?_⟩
      rw [List.foldlM_append]
      exact Outcome.bind_eq_ok.mpr ⟨msg, folded, carried⟩
  · constructor
    · rintro ⟨itemsSecond, wireSecond, _, carried⟩
      obtain rfl := Sequence.unique (item_delimited _) wire' wireSecond
      exact carried
    · intro carried
      exact ⟨_, wire', affords', carried⟩

theorem concatenates_of_replaces (wellformed : Wellformed schema)
    (replaces : ReplacesNothing schema fqn) : Concatenates schema fqn := by
  intro first second whole limits msg later items items' joined decoded decoded' wire wire' affords
    final
  obtain ⟨inOne, after⟩ := decode_joined wellformed joined decoded decoded' wire wire' affords
  exact ⟨inOne.trans after.symm, by rw [after, mergeItem_eq replaces]⟩

/-- Items laid one after another are decoded to what they are applied to. -/
theorem decode_laid (wellformed : Wellformed schema) {r : Reader} {start msg : Struct}
    {items : List Item} (solvent : r.Solvent) (limits : r.limits = .unlimited)
    (wire : Items (mergeWire (genArms schema (schema.messageOf fqn))) items r.rest)
    (folded : items.foldlM (applyArm (GenMsg.mergeFrom schema) schema
      (genArms schema (schema.messageOf fqn)) .unlimited r.depth) start = .ok msg) :
    GenMsg.mergeFrom schema fqn start r = .ok msg := by
  rw [mergeFrom_eq_ok_iff wellformed solvent]
  exact ⟨items, wire, affords_unlimited limits items, by rwa [limits]⟩

/-- A field of no type, and the struct with nothing else. -/
private def stray : Item := ⟨⟨536870912, .varint, Tag.nonzero_past⟩, .varint 0⟩

private def strayStruct (schema : Schema) (fqn : String) : Struct :=
  { schema.default fqn with unknown := UnknownFieldSet.empty.insert 536870912 (.varint 0) }

private theorem decode_stray (wellformed : Wellformed schema) (fqn : String) :
    GenMsg.mergeFrom schema fqn (schema.default fqn)
      (Reader.childAt .unlimited 0 (.ofBytes stray.laid)) = .ok (strayStruct schema fqn) := by
  have missing : SortedMap.get? (genArms schema (schema.messageOf fqn)) 536870912 = none := by
    apply SortedMap.get?_eq_none_iff.mpr
    intro entry member same
    have small := wellformed.numbered fqn entry member
    rw [same] at small
    exact absurd small (by decide)
  have layable : ∀ item ∈ [stray], item.Layable (mergeWire (genArms schema (schema.messageOf fqn))) := by
    intro item lone
    rw [List.mem_singleton.mp lone]
    refine ⟨?_, trivial⟩
    simp only [mergeWire, stray, missing]
    rfl
  refine decode_laid wellformed (Reader.child_solvent (Reader.withLimits .empty .unlimited) _) rfl
    (items_laid layable) ?_
  rw [List.foldlM_cons]
  refine Outcome.bind_eq_ok.mpr ⟨_, ?_, rfl⟩
  simp only [applyArm, stray, missing]
  rfl

/-- Where an arm keeps the messages of a type. -/
private structure Kept (schema : Schema) (fqn : String) (number : UInt32) (arm : Arm) (inner : String)
    (store : Struct → Struct → Struct) : Prop where
  wire : arm.wire .lengthDelimited = .lengthDelimited
  applies : ∀ msg body m, GenMsg.mergeFrom schema inner (schema.default inner)
      (Reader.childAt .unlimited 0 (.ofBytes body)) = .ok m →
    arm.apply (GenMsg.mergeFrom schema) schema .unlimited 0 msg number .lengthDelimited
      (.lengthDelimited body) = .ok (store msg m)
  merges : ∀ msg m m' body, arm.held msg number = some m →
    GenMsg.mergeFrom schema inner m (Reader.childAt .unlimited 0 (.ofBytes body)) = .ok m' →
    arm.merge (GenMsg.mergeFrom schema) schema .unlimited 0 msg number .lengthDelimited
      (.lengthDelimited body) = .ok (store msg m')
  here : ∀ m, arm.held (store (schema.default fqn) m) number = some m
  again : ∀ m m', arm.held (store (store (schema.default fqn) m) m') number = some m'

private theorem kept_replace (schema : Schema) (fqn : String) (number : UInt32) (inner : String) :
    Kept schema fqn number (.replace inner) inner
      fun msg m => msg.setSlot number (.implicit (.message m)) := by
  refine ⟨rfl, fun msg body m decoded => ?_, fun msg m m' body held decoded => ?_, fun m => ?_,
    fun m m' => ?_⟩
  · exact Outcome.bind_eq_ok.mpr ⟨_, rfl, Outcome.bind_eq_ok.mpr ⟨m, decoded, rfl⟩⟩
  · simp only [Arm.merge, held]
    exact Outcome.bind_eq_ok.mpr ⟨_, rfl, Outcome.bind_eq_ok.mpr ⟨m', decoded, rfl⟩⟩
  · simp only [Arm.held, GenMsg.setSlot, SortedMap.get?_insert_self]
  · simp only [Arm.held, GenMsg.setSlot, SortedMap.get?_insert_self]

private theorem oneof_inside {number : UInt32} {index : Nat} {ty : TyRef}
    (member : (number, Arm.oneof index ty) ∈ genArms schema (schema.messageOf fqn)) :
    index < (schema.default fqn).oneofs.length := by
  have noField {mode : SyntaxMode} {f : FieldDescriptorProto} {ty' : TyRef} :
      genFieldDecode mode f ty' ≠ .oneof index ty := by
    unfold genFieldDecode decodeAssign genRepeatedDecode
    repeat' split
    all_goals exact nofun
  have length : (schema.default fqn).oneofs.length =
      (schema.messageOf fqn).descriptor.oneofDecl.length := List.length_map _
  rw [length]
  rcases List.mem_append.mp member with plain | variant
  · obtain ⟨f, _, arm⟩ := List.mem_filterMap.mp plain
    split at arm
    · cases arm
    · obtain ⟨ty', _, same⟩ := Option.map_eq_some_iff.mp arm
      exact absurd (congrArg Prod.snd same) noField
  · obtain ⟨⟨decl, place⟩, declared, inner⟩ := List.mem_flatMap.mp variant
    obtain ⟨f, _, arm⟩ := List.mem_filterMap.mp inner
    obtain ⟨ty', _, same⟩ := Option.map_eq_some_iff.mp arm
    cases same
    exact List.snd_lt_of_mem_zipIdx declared

private theorem kept_oneof (schema : Schema) (fqn : String) (number : UInt32) (inner : String)
    {index : Nat} (inside : index < (schema.default fqn).oneofs.length) :
    Kept schema fqn number (.oneof index (.message inner)) inner
      fun msg m => msg.setOneof index number (.message m) := by
  refine ⟨rfl, fun msg body m decoded => ?_, fun msg m m' body held decoded => ?_, fun m => ?_,
    fun m m' => ?_⟩
  · simp only [Arm.apply, interpretTy]
    refine Outcome.bind_eq_ok.mpr ⟨.message m, ?_, rfl⟩
    exact Outcome.bind_eq_ok.mpr ⟨_, rfl, Outcome.bind_eq_ok.mpr ⟨m, decoded, rfl⟩⟩
  · simp only [Arm.merge, held]
    exact Outcome.bind_eq_ok.mpr ⟨_, rfl, Outcome.bind_eq_ok.mpr ⟨m', decoded, rfl⟩⟩
  · simp [Arm.held, GenMsg.setOneof, inside]
  · simp [Arm.held, GenMsg.setOneof, inside]

/-- Of two items laid one after another, the second is applied as it is merged. -/
private theorem merge_of_applied (wellformed : Wellformed schema)
    (concatenates : Concatenates schema fqn) {item item' : Item}
    (layable : item.Layable (mergeWire (genArms schema (schema.messageOf fqn))))
    (layable' : item'.Layable (mergeWire (genArms schema (schema.messageOf fqn))))
    (short : item.laid.length < 2 ^ 40) (short' : item'.laid.length < 2 ^ 40)
    {msg later final : Struct}
    (applied : applyArm (GenMsg.mergeFrom schema) schema (genArms schema (schema.messageOf fqn))
      .unlimited 0 (schema.default fqn) item = .ok msg)
    (alone : applyArm (GenMsg.mergeFrom schema) schema (genArms schema (schema.messageOf fqn))
      .unlimited 0 (schema.default fqn) item' = .ok later)
    (again : applyArm (GenMsg.mergeFrom schema) schema (genArms schema (schema.messageOf fqn))
      .unlimited 0 msg item' = .ok final) :
    mergeItem schema (genArms schema (schema.messageOf fqn)) .unlimited 0 msg item' = .ok final := by
  have single {f : Struct → Item → Result Struct} {start : Struct} {x : Item} {result : Struct} :
      [x].foldlM f start = .ok result ↔ f start x = .ok result := by
    rw [List.foldlM_cons, Outcome.bind_eq_ok]
    simp
  have each : ∀ other ∈ [item, item'],
      other.Layable (mergeWire (genArms schema (schema.messageOf fqn))) := by
    simpa using ⟨layable, layable'⟩
  have laid (items : List Item) (within : ∀ other ∈ items, other ∈ [item, item'])
      (few : (items.flatMap Item.laid).length < 2 ^ 63) :
      Items (mergeWire (genArms schema (schema.messageOf fqn))) items
        (Slice.ofBytes (items.flatMap Item.laid)).bytes := by
    rw [Slice.bytes_ofBytes few]
    exact items_laid fun other member => each other (within other member)
  have lengths : ([item].flatMap Item.laid).length < 2 ^ 63 ∧
      ([item'].flatMap Item.laid).length < 2 ^ 63 ∧
      ([item, item'].flatMap Item.laid).length < 2 ^ 63 := by
    simp only [List.flatMap_cons, List.flatMap_nil, List.length_append, List.length_nil]
    omega
  have wire := laid [item] (by simp) lengths.1
  have wire' := laid [item'] (by simp) lengths.2.1
  have solvent (buf : Slice) := Reader.withLimits_solvent buf .unlimited
  have decoded : GenMsg.decode schema fqn (.ofBytes ([item].flatMap Item.laid)) .unlimited = .ok msg :=
    decode_laid wellformed (solvent _) rfl wire (single.mpr applied)
  have decoded' : GenMsg.decode schema fqn (.ofBytes ([item'].flatMap Item.laid)) .unlimited =
      .ok later := decode_laid wellformed (solvent _) rfl wire' (single.mpr alone)
  have folded : [item, item'].foldlM (applyArm (GenMsg.mergeFrom schema) schema
      (genArms schema (schema.messageOf fqn)) .unlimited 0) (schema.default fqn) = .ok final := by
    rw [List.foldlM_cons]
    exact Outcome.bind_eq_ok.mpr ⟨msg, applied, single.mpr again⟩
  have decodedWhole : GenMsg.decode schema fqn (.ofBytes ([item, item'].flatMap Item.laid))
      .unlimited = .ok final :=
    decode_laid wellformed (solvent _) rfl (laid _ (fun _ member => member) lengths.2.2) folded
  have joined : (Slice.ofBytes ([item, item'].flatMap Item.laid)).bytes =
      (Slice.ofBytes ([item].flatMap Item.laid)).bytes ++
        (Slice.ofBytes ([item'].flatMap Item.laid)).bytes := by
    rw [Slice.bytes_ofBytes lengths.1, Slice.bytes_ofBytes lengths.2.1,
      Slice.bytes_ofBytes lengths.2.2]
    simp
  have merged := concatenates _ _ _ _ _ _ _ _ joined decoded decoded' wire wire'
    (affords_unlimited rfl _) final
  exact single.mp (merged.fieldwise.mp (merged.joined.mp decodedWhole))

/-- A message that is met again shows whether it is merged. -/
private theorem not_kept (wellformed : Wellformed schema) (concatenates : Concatenates schema fqn)
    {number : UInt32} {arm : Arm} {inner : String} {store : Struct → Struct → Struct}
    (nonzero : number ≠ 0)
    (found : SortedMap.get? (genArms schema (schema.messageOf fqn)) number = some arm)
    (kept : Kept schema fqn number arm inner store) : False := by
  let item (body : List UInt8) : Item := ⟨⟨number, .lengthDelimited, nonzero⟩, .lengthDelimited body⟩
  have layable (body : List UInt8) (short : body.length < 2 ^ 64) :
      (item body).Layable (mergeWire (genArms schema (schema.messageOf fqn))) := by
    refine ⟨?_, short⟩
    simp only [mergeWire, item, found, kept.wire]
    rfl
  have short (body : List UInt8) (few : body.length < 2 ^ 32) :
      (item body).laid.length < 2 ^ 40 := by
    have header := (encodeVarint_length_bounds (UInt64.ofNat body.length)).2
    have laid := Item.laid_length (item body)
    have width : (item body).value.bytes.length =
        (encodeVarint (UInt64.ofNat body.length)).length + body.length := List.length_append
    omega
  have few : stray.laid.length < 2 ^ 32 := by decide
  have strange := decode_stray wellformed inner
  have blank (m : Struct) : GenMsg.mergeFrom schema inner m
      (Reader.childAt .unlimited 0 (.ofBytes [])) = .ok m := rfl
  have step (msg : Struct) (body : List UInt8) (m : Struct)
      (decoded : GenMsg.mergeFrom schema inner (schema.default inner)
        (Reader.childAt .unlimited 0 (.ofBytes body)) = .ok m) :
      applyArm (GenMsg.mergeFrom schema) schema (genArms schema (schema.messageOf fqn)) .unlimited 0
        msg (item body) = .ok (store msg m) := by
    simp only [applyArm, item, found]
    exact kept.applies msg body m decoded
  have merged := merge_of_applied wellformed concatenates (layable stray.laid (by decide))
    (layable [] (by decide)) (short stray.laid few) (short [] (by decide)) (step _ _ _ strange)
    (step _ _ _ (blank _)) (step _ _ _ (blank _))
  simp only [mergeItem, item, found] at merged
  rw [kept.merges _ _ _ [] (kept.here _) (blank _)] at merged
  have same := congrArg (fun msg => arm.held msg number) (Outcome.ok.inj merged)
  simp only [kept.again, Option.some.injEq] at same
  have unknown := congrArg GenMsg.unknown same
  cases congrArg UnknownFieldSet.entries unknown

/-- Decoding a concatenation merges exactly for the types of which nothing is replaced. -/
theorem concatenates_iff (wellformed : Wellformed schema) :
    Concatenates schema fqn ↔ ReplacesNothing schema fqn := by
  refine ⟨fun concatenates number arm nonzero found replaces => ?_,
    concatenates_of_replaces wellformed⟩
  cases arm with
  | replace inner =>
    exact not_kept wellformed concatenates nonzero found (kept_replace schema fqn number inner)
  | oneof index ty =>
    cases ty with
    | message inner =>
      have inside : index < (schema.default fqn).oneofs.length :=
        oneof_inside (SortedMap.mem_of_get? found)
      exact not_kept wellformed concatenates nonzero found
        (kept_oneof schema fqn number inner inside)
    | scalar | enum => exact replaces
  | assign | assignSome | mergeInto | push | byWireType | nothing | insertEntry => exact replaces

end Merge

end TptProto.Codegen
