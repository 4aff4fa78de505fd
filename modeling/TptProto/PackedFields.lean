import TptProto.Codegen.Nesting
import TptProto.Codegen.Occurrences
import TptProto.Codegen.PackedTrip
import TptProto.Descriptor.LocationFields
import TptProto.Reflect.PackedFields

/-! Repeated fields of packable types under the emitted decoder: which of them are read
from single elements and packed chunks alike. -/

namespace TptProto.Codegen

open TptProto.Foundation TptProto.Core TptProto.Descriptor

/-- What a single element is decoded to. -/
def packedWord (schema : Schema) (ty : TyRef) (word : UnknownValue) : GenValue :=
  match interpretTy (fun _ _ _ => .outOfFuel) schema .default 0 ty word with
  | .ok value => value
  | _ => .bytes []

section Words

variable {schema : Schema} {ty : TyRef} {word : UnknownValue} {code : PackedDecode}

theorem interpretTy_word (packable : ty.Packable) (kind : word.wireType = tyWire ty) (recurse : Merge)
    (limits : DecoderLimits) (depth : UInt32) :
    interpretTy recurse schema limits depth ty word = .ok (packedWord schema ty word) := by
  cases ty with
  | message fqn => exact packable.elim
  | enum fqn => cases word <;> simp only [UnknownValue.wireType, tyWire, reduceCtorEq] at kind; rfl
  | scalar t =>
    cases t with
    | string => exact absurd rfl packable.1
    | bytes => exact absurd rfl packable.2.1
    | message => exact absurd rfl packable.2.2.1
    | group => exact absurd rfl packable.2.2.2.1
    | enum => exact absurd rfl packable.2.2.2.2
    | _ =>
      cases word <;>
        simp only [UnknownValue.wireType, tyWire, primWire, isFixed32, isFixed64, reduceCtorEq,
          Bool.false_eq_true, if_true, if_false] at kind
      rfl

theorem tyWire_packable (packable : ty.Packable) :
    tyWire ty = .varint ∨ tyWire ty = .fixed32 ∨ tyWire ty = .fixed64 := by
  cases ty with
  | message fqn => exact packable.elim
  | enum fqn => exact .inl rfl
  | scalar t =>
    cases t with
    | string => exact absurd rfl packable.1
    | bytes => exact absurd rfl packable.2.1
    | _ => first | exact .inl rfl | exact .inr (.inl rfl) | exact .inr (.inr rfl)

theorem tyWire_fixed (packable : ty.Packable) : tyWire ty ≠ .lengthDelimited := by
  rcases tyWire_packable packable with kind | kind | kind <;> rw [kind] <;> decide

/-- The element pushed for a `raw` is the one a single occurrence gives. -/
private theorem element_word (packable : ty.Packable) (decodes : genPackedDecode ty = some code)
    (compiled : code.Compiles ty.prim) (kind : word.wireType = tyWire ty) :
    element schema ty (run code.pushed (code.rawWord word)) = packedWord schema ty word := by
  cases ty with
  | message fqn => exact packable.elim
  | enum fqn =>
    cases decodes
    cases word <;> simp only [UnknownValue.wireType, tyWire, reduceCtorEq] at kind
    rfl
  | scalar t =>
    cases t with
    | string => exact absurd rfl packable.1
    | bytes => exact absurd rfl packable.2.1
    | message => exact absurd rfl packable.2.2.1
    | group => exact absurd rfl packable.2.2.2.1
    | enum => exact absurd rfl packable.2.2.2.2
    | sint32 | sint64 | bool =>
      cases decodes
      exact absurd compiled (by decide)
    | _ =>
      cases decodes
      cases word <;>
        simp only [UnknownValue.wireType, tyWire, primWire, isFixed32, isFixed64, reduceCtorEq,
          Bool.false_eq_true, if_true, if_false] at kind
      rfl

theorem packedDecode_form (packable : ty.Packable) (decodes : genPackedDecode ty = some code) :
    code.form.wireType = tyWire ty ∧ code.Readable := by
  cases ty with
  | message fqn => cases decodes
  | enum fqn =>
    cases decodes
    exact ⟨rfl, fun _ => by decide⟩
  | scalar t =>
    cases t with
    | string | bytes | message | group => cases decodes
    | enum => exact absurd rfl packable.2.2.2.2
    | int32 | int64 | uint32 | uint64 | bool | sint32 | sint64 =>
      cases decodes
      exact ⟨rfl, fun _ => by decide⟩
    | fixed32 | sfixed32 | float | fixed64 | sfixed64 | double =>
      cases decodes
      exact ⟨rfl, fun varint => by cases varint⟩

/-- A packed chunk is decoded to its elements, where the emitted code compiles. -/
theorem interpretPacked_elements (packable : ty.Packable) (decodes : genPackedDecode ty = some code)
    (compiled : code.Compiles ty.prim) {limits : DecoderLimits} {depth : UInt32}
    {words : List UnknownValue} {body : List UInt8} (wire : Elements (tyWire ty) words body)
    (short : body.length < 2 ^ 63)
    (budget : DecoderLimits.within limits.maxBytes body.length = true)
    (shallow : depth + 1 ≤ limits.maxDepth) :
    interpretPacked code schema ty limits depth body = .ok (words.map (packedWord schema ty)) := by
  obtain ⟨form, readable⟩ := packedDecode_form packable decodes
  have kinds : ∀ word ∈ words, word.wireType = tyWire ty := wire.forall fun _ _ element => element.1
  rw [← form] at wire
  rw [interpretPacked, PackedDecode.raws_elements readable wire short budget shallow, Outcome.ok_bind,
    List.map_map]
  exact congrArg Outcome.ok (List.map_congr_left fun word member =>
    element_word packable decodes compiled (kinds word member))

end Words

/-- A struct with the same contents as another, but for one field. -/
structure Beside (number : UInt32) (msg alone : Struct) : Prop where
  sorted : SortedMap.Sorted msg.fields
  sortedAlone : SortedMap.Sorted alone.fields
  oneofs : msg.oneofs = alone.oneofs
  unknown : msg.unknown = alone.unknown
  fields : ∀ other, other ≠ number →
    SortedMap.get? msg.fields other = SortedMap.get? alone.fields other

namespace Beside

variable {number other : UInt32} {msg alone later : Struct}

/-- The same update of another field on both sides. -/
private theorem upsert (beside : Beside number msg alone) (differs : other ≠ number)
    {f : Option (Slot GenValue) → Slot GenValue} :
    Beside number { msg with fields := SortedMap.upsert msg.fields other f }
        { alone with fields := SortedMap.upsert alone.fields other f } ∧
      SortedMap.get? (SortedMap.upsert msg.fields other f) number = SortedMap.get? msg.fields number := by
  refine ⟨⟨beside.sorted.upsert _ _, beside.sortedAlone.upsert _ _, beside.oneofs, beside.unknown,
    fun key elsewhere => ?_⟩, ?_⟩
  · have same := beside.fields key elsewhere
    have here := beside.fields other differs
    simp only
    rw [SortedMap.get?_upsert beside.sorted, SortedMap.get?_upsert beside.sortedAlone, same, here]
  · rw [SortedMap.get?_upsert beside.sorted, if_neg differs.symm]

private theorem existing (beside : Beside number msg alone) (differs : other ≠ number)
    (schema : Schema) (fqn : String) :
    msg.existing schema other fqn = alone.existing schema other fqn := by
  simp only [GenMsg.existing, beside.fields other differs]

/-- Another field's arm acts as if the one left out were not there. -/
theorem apply {recurse : Merge} {schema : Schema} {limits : DecoderLimits} {depth : UInt32}
    {wire : WireType} {value : UnknownValue} {arm : Arm} (beside : Beside number msg alone)
    (differs : other ≠ number)
    (applied : arm.apply recurse schema limits depth alone other wire value = .ok later) :
    ∃ next, arm.apply recurse schema limits depth msg other wire value = .ok next ∧
      Beside number next later ∧
      SortedMap.get? next.fields number = SortedMap.get? msg.fields number := by
  cases arm with
  | assign ty | assignSome ty | push ty =>
    simp only [Arm.apply, Outcome.bind_eq_ok, Outcome.ok.injEq] at applied ⊢
    obtain ⟨v, read, rfl⟩ := applied
    exact ⟨_, ⟨v, read, rfl⟩, beside.upsert differs⟩
  | replace fqn =>
    simp only [Arm.apply, Outcome.bind_eq_ok, Outcome.ok.injEq] at applied ⊢
    obtain ⟨sub, opened, m, merged, rfl⟩ := applied
    exact ⟨_, ⟨sub, opened, m, merged, rfl⟩, beside.upsert differs⟩
  | mergeInto fqn =>
    simp only [Arm.apply, beside.existing differs, Outcome.bind_eq_ok, Outcome.ok.injEq] at applied ⊢
    obtain ⟨sub, opened, m, merged, rfl⟩ := applied
    exact ⟨_, ⟨sub, opened, m, merged, rfl⟩, beside.upsert differs⟩
  | byWireType code ty =>
    simp only [Arm.apply] at applied ⊢
    split at applied
    · rename_i packed
      simp only [Outcome.bind_eq_ok, Outcome.ok.injEq] at applied
      obtain ⟨values, read, rfl⟩ := applied
      exact ⟨msg.pushAll other values, by simp only [if_pos packed, read, Outcome.ok_bind],
        beside.upsert differs⟩
    · rename_i unpacked
      simp only [Outcome.bind_eq_ok, Outcome.ok.injEq] at applied
      obtain ⟨v, read, rfl⟩ := applied
      exact ⟨msg.pushAll other [v], by simp only [if_neg unpacked, read, Outcome.ok_bind],
        beside.upsert differs⟩
  | nothing =>
    cases applied
    exact ⟨msg, rfl, beside, rfl⟩
  | insertEntry k v =>
    simp only [Arm.apply, Outcome.bind_eq_ok, Outcome.ok.injEq] at applied ⊢
    obtain ⟨entry, read, rfl⟩ := applied
    exact ⟨_, ⟨entry, read, rfl⟩, beside.upsert differs⟩
  | oneof index ty =>
    simp only [Arm.apply, Outcome.bind_eq_ok, Outcome.ok.injEq] at applied ⊢
    obtain ⟨v, read, rfl⟩ := applied
    refine ⟨_, ⟨v, read, rfl⟩, ⟨beside.sorted, beside.sortedAlone, ?_, beside.unknown, beside.fields⟩, rfl⟩
    simp only [GenMsg.setOneof, beside.oneofs]

/-- An item of another field acts as if the one left out were not there. -/
theorem applyArm {recurse : Merge} {schema : Schema} {arms : List (UInt32 × Arm)}
    {limits : DecoderLimits} {depth : UInt32} {item : Item} (beside : Beside number msg alone)
    (differs : item.tag.fieldNumber ≠ number)
    (applied : Codegen.applyArm recurse schema arms limits depth alone item = .ok later) :
    ∃ next, Codegen.applyArm recurse schema arms limits depth msg item = .ok next ∧
      Beside number next later ∧
      SortedMap.get? next.fields number = SortedMap.get? msg.fields number := by
  unfold Codegen.applyArm at applied ⊢
  cases found : SortedMap.get? arms item.tag.fieldNumber with
  | some arm =>
    simp only [found] at applied ⊢
    exact beside.apply differs applied
  | none =>
    simp only [found, Outcome.bind_eq_ok, Outcome.ok.injEq] at applied
    obtain ⟨unknown, kept, rfl⟩ := applied
    refine ⟨{ msg with unknown }, ?_, ⟨beside.sorted, beside.sortedAlone, beside.oneofs, rfl,
      beside.fields⟩, rfl⟩
    simp only [beside.unknown, kept, Outcome.ok_bind]

end Beside

/-- The code emitted for an arm compiles, as far as its packed expressions go. -/
def Arm.Compiles : Arm → Prop
  | .byWireType code ty => code.Compiles ty.prim
  | _ => True

/-- Where the other fields of an input can be merged, so can all of it, and the elements of
the field are pushed in wire order. -/
def MergesPacked (schema : Schema) (fqn : String) (number : UInt32) (ty : TyRef) (msg : Struct)
    (r : Reader) (pieces : List (Piece (tyWire ty))) : Prop :=
  ∀ stored, SortedMap.Sorted msg.fields →
    SortedMap.get? msg.fields number = some (.repeated stored) →
    ∀ apart base, Apart r apart (mergeWire (genArms schema (schema.messageOf fqn))) pieces →
      GenMsg.mergeFrom schema fqn msg apart = .ok base →
      ∃ final, GenMsg.mergeFrom schema fqn msg r = .ok final ∧
        SortedMap.get? final.fields number =
          some (.repeated (stored ++ (elementsOf pieces).map (packedWord schema ty)))

/-- The other items of an input belong to no group field. -/
def Groupless (schema : Schema) (fqn : String) {kind : WireType} (pieces : List (Piece kind)) : Prop :=
  ∀ item ∈ pieces.filterMap Piece.other?,
    RegularAt (genArms schema (schema.messageOf fqn)) item.tag.fieldNumber

/-- Every input made of occurrences of a kind is merged right into any struct, whatever
other fields it has. -/
def MergesEvery (schema : Schema) (fqn : String) {number : UInt32} (nonzero : number ≠ 0) (ty : TyRef)
    (among : Occurrence (tyWire ty) → Prop) : Prop :=
  ∀ msg r pieces, Groupless schema fqn pieces →
    PackedInput r number nonzero (mergeWire (genArms schema (schema.messageOf fqn))) pieces →
    (∀ occurrence ∈ pieces.filterMap Piece.own?, among occurrence) →
    MergesPacked schema fqn number ty msg r pieces

/-- The arm reads the occurrence right. -/
def Arm.Accepts {kind : WireType} (arm : Arm) (occurrence : Occurrence kind) : Prop :=
  match arm with
  | .byWireType code ty => code.Compiles ty.prim
  | _ => ¬ occurrence.Chunked

section Fields

variable {schema : Schema} {fqn : String} {number : UInt32} {nonzero : number ≠ 0} {ty : TyRef}
  {mode : SyntaxMode} {r : Reader} {pieces : List (Piece (tyWire ty))}

theorem genRepeatedDecode_packable (packable : ty.Packable) (mode : SyntaxMode) :
    (mode = .proto2 ∧ genRepeatedDecode ty mode = .push ty) ∨
      ∃ code, mode = .proto3 ∧ genPackedDecode ty = some code ∧
        genRepeatedDecode ty mode = .byWireType code ty := by
  obtain ⟨code, decodes⟩ : ∃ code, genPackedDecode ty = some code := by
    cases ty with
    | message fqn => exact packable.elim
    | enum fqn => exact ⟨_, rfl⟩
    | scalar t =>
      cases t with
      | string => exact absurd rfl packable.1
      | bytes => exact absurd rfl packable.2.1
      | message => exact absurd rfl packable.2.2.1
      | group => exact absurd rfl packable.2.2.2.1
      | enum => exact absurd rfl packable.2.2.2.2
      | _ => exact ⟨_, rfl⟩
  have emitted : genRepeatedDecode ty mode = if mode = .proto2 then .push ty else .byWireType code ty := by
    cases ty with
    | message fqn => exact packable.elim
    | enum fqn => simp only [genRepeatedDecode, decodes]
    | scalar t =>
      cases t with
      | string => exact absurd rfl packable.1
      | bytes => exact absurd rfl packable.2.1
      | _ => simp only [genRepeatedDecode, decodes]
  cases mode with
  | proto2 => exact .inl ⟨rfl, emitted⟩
  | proto3 => exact .inr ⟨code, rfl, decodes, emitted⟩

theorem genRepeatedDecode_regular (packable : ty.Packable) : (genRepeatedDecode ty mode).Regular := by
  rcases genRepeatedDecode_packable packable mode with ⟨_, emitted⟩ | ⟨code, _, _, emitted⟩ <;>
    rw [emitted] <;> exact packable.plain

/-- An occurrence that is accepted is delimited by its tag. -/
private theorem wire_occurrence (packable : ty.Packable) (occurrence : Occurrence (tyWire ty))
    (accepted : (genRepeatedDecode ty mode).Accepts occurrence) :
    (genRepeatedDecode ty mode).wire occurrence.value.wireType = occurrence.value.wireType := by
  have fixed := tyWire_fixed packable
  rcases genRepeatedDecode_packable packable mode with ⟨_, emitted⟩ | ⟨code, _, _, emitted⟩ <;>
    rw [emitted] at accepted ⊢
  · cases occurrence with
    | single word fits => exact fits.symm
    | chunk words body wire => exact absurd trivial accepted
  · cases occurrence with
    | single word fits =>
      simp only [Arm.wire, Occurrence.value, fits, if_neg fixed]
    | chunk words body wire => rfl

/-- An occurrence that is accepted pushes its elements. -/
private theorem apply_occurrence (packable : ty.Packable) (recurse : Merge) {limits : DecoderLimits}
    {depth : UInt32} (occurrence : Occurrence (tyWire ty))
    (accepted : (genRepeatedDecode ty mode).Accepts occurrence)
    (short : occurrence.value.payload.length < 2 ^ 63)
    (budget : DecoderLimits.within limits.maxBytes occurrence.value.payload.length = true)
    (shallow : depth + 1 ≤ limits.maxDepth) (msg : Struct) :
    (genRepeatedDecode ty mode).apply recurse schema limits depth msg number occurrence.value.wireType
        occurrence.value = .ok (msg.pushAll number (occurrence.words.map (packedWord schema ty))) := by
  have fixed := tyWire_fixed packable
  rcases genRepeatedDecode_packable packable mode with ⟨_, emitted⟩ | ⟨code, _, decodes, emitted⟩ <;>
    rw [emitted] at accepted ⊢
  · cases occurrence with
    | single word fits =>
      simp only [Arm.apply, Occurrence.value, interpretTy_word packable fits, Outcome.ok_bind,
        Occurrence.words, List.map_cons, List.map_nil]
    | chunk words body wire => exact absurd trivial accepted
  · cases occurrence with
    | single word fits =>
      simp only [Arm.apply, Occurrence.value, fits, if_neg fixed, interpretTy_word packable fits,
        Outcome.ok_bind, Occurrence.words, List.map_cons, List.map_nil]
    | chunk words body wire =>
      have read : interpretPacked code schema ty limits depth body =
          .ok (words.map (packedWord schema ty)) :=
        interpretPacked_elements packable decodes accepted wire short budget shallow
      simp only [Arm.apply, Occurrence.value, UnknownValue.wireType, if_true, UnknownValue.payload, read,
        Outcome.ok_bind, Occurrence.words]

/-- The repeated field of a struct, under whatever else it holds. -/
private def Holds (number : UInt32) (msg : Struct) (held : List GenValue) : Prop :=
  SortedMap.get? msg.fields number = some (.repeated held)

/-- Occurrences that are all accepted are merged right. -/
theorem mergesPacked_of_accepted (packable : ty.Packable)
    (found : SortedMap.get? (genArms schema (schema.messageOf fqn)) number =
      some (genRepeatedDecode ty mode))
    (accepted : ∀ occurrence ∈ pieces.filterMap Piece.own?, (genRepeatedDecode ty mode).Accepts occurrence)
    (groupless : Groupless schema fqn pieces)
    (input : PackedInput r number nonzero (mergeWire (genArms schema (schema.messageOf fqn))) pieces)
    (msg : Struct) : MergesPacked schema fqn number ty msg r pieces := by
  intro stored sorted slot apart base alone merged
  have regular : ∀ item ∈ pieces.map (Piece.item number nonzero),
      RegularAt (genArms schema (schema.messageOf fqn)) item.tag.fieldNumber := by
    intro item member
    obtain ⟨piece, inside, rfl⟩ := List.mem_map.mp member
    cases piece with
    | own occurrence =>
      intro arm here
      obtain rfl := Option.some.inj (found.symm.trans here)
      exact genRepeatedDecode_regular packable
    | other item => exact groupless item (List.mem_filterMap.mpr ⟨_, inside, rfl⟩)
  have wire : Items (mergeWire (genArms schema (schema.messageOf fqn)))
      (pieces.map (Piece.item number nonzero)) r.rest := by
    refine input.wire.rewire fun item member => ?_
    obtain ⟨piece, inside, rfl⟩ := List.mem_map.mp member
    cases piece with
    | own occurrence =>
      have fine := wire_occurrence packable occurrence
        (accepted occurrence (List.mem_filterMap.mpr ⟨_, inside, rfl⟩))
      simp only [wireAround, Piece.item, if_true, mergeWire, found, fine]
    | other item => exact if_neg (input.others item (List.mem_filterMap.mpr ⟨_, inside, rfl⟩))
  rw [GenMsg.mergeFrom_eq, mergeWith_items groupless alone.solvent alone.wire, alone.limits,
    alone.depth] at merged
  have folded := merged.2
  rw [← PackedInput.foldlM_others nonzero (packedWord schema ty)] at folded
  obtain ⟨final, whole, _, holds⟩ := Outcome.foldlM_interleaved
    (fun msg (piece : Piece _) => applyArm (GenMsg.mergeFrom schema) schema
      (genArms schema (schema.messageOf fqn)) r.limits r.depth msg (piece.item number nonzero))
    (Beside number) (Holds number)
    (Piece.values (packedWord schema ty))
    (fun piece member vals same state other held beside holds => by
      cases piece with
      | own occurrence =>
        cases same
        refine ⟨state.pushAll number (occurrence.words.map (packedWord schema ty)), ?_,
          ⟨beside.sorted.upsert _ _, beside.sortedAlone, beside.oneofs, beside.unknown,
            fun key differs => ?_⟩, ?_⟩
        · simp only [applyArm, Piece.item, found]
          exact apply_occurrence packable _ occurrence
            (accepted occurrence (List.mem_filterMap.mpr ⟨_, member, rfl⟩)) (input.short member)
            (input.body member) input.shallow state
        · simp only [GenMsg.pushAll]
          rw [SortedMap.get?_upsert beside.sorted, if_neg differs, beside.fields key differs]
        · simp only [Holds, GenMsg.pushAll] at holds ⊢
          rw [SortedMap.get?_upsert beside.sorted, if_pos rfl, holds]
      | other item => cases same)
    (fun piece member same state other after held beside holds applied => by
      cases piece with
      | own occurrence => cases same
      | other item =>
        have differs := input.others item (List.mem_filterMap.mpr ⟨_, member, rfl⟩)
        obtain ⟨next, moved, beside', kept⟩ := beside.applyArm differs applied
        exact ⟨next, moved, beside', kept.trans holds⟩)
    ⟨sorted, sorted, rfl, rfl, fun _ _ => rfl⟩ slot
    folded
  refine ⟨final, ?_, ?_⟩
  · rw [GenMsg.mergeFrom_eq, mergeWith_items regular input.solvent wire]
    refine ⟨input.affords, ?_⟩
    rwa [List.foldlM_map]
  · rw [← values_elementsOf]
    exact holds

/-- Of an empty chunk an element is read all the same. -/
private theorem not_mergesPacked_empty (packable : ty.Packable) (nonzero : number ≠ 0)
    (found : SortedMap.get? (genArms schema (schema.messageOf fqn)) number = some (.push ty)) :
    ¬ MergesPacked schema fqn number ty ⟨[(number, .repeated [])], [], .empty⟩
      ((Occurrence.empty : Occurrence (tyWire ty)).lone number) [.own .empty] := by
  intro merges
  have slot : SortedMap.get? [(number, Slot.repeated ([] : List GenValue))] number =
      some (.repeated []) := by rw [SortedMap.get?_cons, if_pos rfl]
  obtain ⟨final, merged, held⟩ := merges [] (by simp [SortedMap.Sorted]) slot _ _
    Occurrence.lone_apart rfl
  have rest : ((Occurrence.empty : Occurrence (tyWire ty)).lone number).rest =
      (Occurrence.empty : Occurrence (tyWire ty)).wire number :=
    Occurrence.lone_rest (Occurrence.empty_short (tyWire ty))
  have solvent : ((Occurrence.empty : Occurrence (tyWire ty)).lone number).Solvent :=
    Reader.withLimits_solvent _ _
  have wireOf : mergeWire (genArms schema (schema.messageOf fqn)) ⟨number, .lengthDelimited, nonzero⟩ =
      tyWire ty := by simp only [mergeWire, found, Arm.wire]
  have regular : RegularAt (genArms schema (schema.messageOf fqn)) number := by
    intro arm here
    obtain rfl := Option.some.inj (found.symm.trans here)
    exact packable.plain
  rw [GenMsg.mergeFrom_eq] at merged
  rcases tyWire_packable packable with kind | wide
  · have wire : Items (mergeWire (genArms schema (schema.messageOf fqn)))
        [⟨⟨number, .lengthDelimited, nonzero⟩, .varint 0⟩]
        ((Occurrence.empty : Occurrence (tyWire ty)).wire number) :=
      .single ((Occurrence.lone_zero _).rewire (by rw [wireOf, kind]))
    have regulars : ∀ item ∈ [(⟨⟨number, .lengthDelimited, nonzero⟩, .varint 0⟩ : Item)],
        RegularAt (genArms schema (schema.messageOf fqn)) item.tag.fieldNumber := by
      intro item member
      rw [List.mem_singleton.mp member]
      exact regular
    rw [mergeWith_items regulars solvent (by rwa [rest])] at merged
    have folded := merged.2
    rw [List.foldlM_cons, Outcome.bind_eq_ok] at folded
    obtain ⟨next, applied, last⟩ := folded
    cases last
    have word : (UnknownValue.varint 0).wireType = tyWire ty := kind.symm
    simp only [applyArm, found, Arm.apply, interpretTy_word packable word, Outcome.ok_bind] at applied
    cases applied
    rw [GenMsg.pushAll, SortedMap.get?_upsert (by simp [SortedMap.Sorted]), if_pos rfl, slot] at held
    simp [elementsOf, Piece.own?, Occurrence.words, Occurrence.empty] at held
  · obtain ⟨raw, tag, numbered, typed⟩ := tagWord_wire number .lengthDelimited
    obtain ⟨value, bytes, later, split, valueWire, sameKind⟩ :=
      mergeWith_first ⟨number, .lengthDelimited, nonzero⟩ regular solvent rest tag numbered typed merged
    have short : bytes.length ≤ 1 := by
      have whole := congrArg List.length split
      rw [List.length_append, show (Occurrence.empty : Occurrence (tyWire ty)).value.bytes.length = 1
        from rfl] at whole
      omega
    rw [wireOf] at sameKind
    rcases wide with kind | kind <;> rw [kind] at sameKind
    · have width := Element.width32 ⟨sameKind, valueWire⟩
      omega
    · have width := Element.width64 ⟨sameKind, valueWire⟩
      omega

theorem packedDecode_compiles_iff {code : PackedDecode} (packable : ty.Packable)
    (decodes : genPackedDecode ty = some code) : code.Compiles ty.prim ↔ ty.PacksCompiled := by
  cases ty with
  | message fqn => exact packable.elim
  | enum fqn =>
    cases decodes
    exact ⟨fun _ => ⟨by simp, by simp, by simp⟩, fun _ => ⟨rfl, rfl⟩⟩
  | scalar t =>
    cases t with
    | string | bytes | message | group => cases decodes
    | enum => exact absurd rfl packable.2.2.2.2
    | _ =>
      cases decodes
      decide

/-- Every input of a repeated field is merged right exactly if the file is `proto3` and the
type's packed code compiles. -/
theorem mergesEvery_iff (packable : ty.Packable) (nonzero : number ≠ 0) (text : String)
    (found : SortedMap.get? (genArms schema (schema.messageOf fqn)) number =
      some (genRepeatedDecode ty (normalizeSyntax text))) :
    ((genRepeatedDecode ty (normalizeSyntax text)).Compiles ∧
      MergesEvery schema fqn nonzero ty (fun _ => True)) ↔ text = "proto3" ∧ ty.PacksCompiled := by
  rcases genRepeatedDecode_packable packable (normalizeSyntax text) with
    ⟨mode, emitted⟩ | ⟨code, mode, decodes, emitted⟩
  · have other : text ≠ "proto3" := by
      rintro rfl
      cases mode
    refine iff_of_false (fun right => ?_) fun both => other both.1
    rw [emitted] at found
    exact not_mergesPacked_empty packable nonzero found
      (right.2 _ _ _ (by simp [Groupless, Piece.other?])
        (Occurrence.lone_input (Occurrence.empty_sized _) (Occurrence.empty_short _)) fun _ _ => trivial)
  · have proto3 : text = "proto3" := by
      unfold normalizeSyntax at mode
      split at mode
      · assumption
      · cases mode
    have compiles : (genRepeatedDecode ty (normalizeSyntax text)).Compiles ↔ ty.PacksCompiled := by
      rw [emitted]
      exact packedDecode_compiles_iff packable decodes
    rw [compiles]
    constructor
    · exact fun right => ⟨proto3, right.1⟩
    · rintro ⟨_, compiled⟩
      refine ⟨compiled, fun msg r pieces groupless input _ =>
        mergesPacked_of_accepted packable found (fun occurrence _ => ?_) groupless input msg⟩
      rw [emitted]
      exact (packedDecode_compiles_iff packable decodes).mpr compiled

/-- In other files a field is merged right from single elements. -/
theorem mergesEvery_single (packable : ty.Packable) (nonzero : number ≠ 0) {text : String}
    (found : SortedMap.get? (genArms schema (schema.messageOf fqn)) number =
      some (genRepeatedDecode ty (normalizeSyntax text))) (other : text ≠ "proto3") :
    MergesEvery schema fqn nonzero ty (fun occurrence => ¬ occurrence.Chunked) := by
  intro msg r pieces groupless input single
  refine mergesPacked_of_accepted packable found (fun occurrence member => ?_) groupless input msg
  have mode : normalizeSyntax text = .proto2 := if_neg other
  rcases genRepeatedDecode_packable packable (normalizeSyntax text) with ⟨_, emitted⟩ | ⟨_, wrong, _⟩
  · rw [emitted]
    exact single occurrence member
  · rw [mode] at wrong
    cases wrong

end Fields

end TptProto.Codegen

/-! Repeated fields of packable types under the three decoders: which of them accept any
mixture of single elements and packed chunks. -/

namespace TptProto

open TptProto.Foundation TptProto.Core TptProto.Descriptor

/-- The dynamic decoder reads every mixture right exactly for a field of the message's own
that is no enum, and any such field from single elements; the emitted code exactly in a
`proto3` file for a type whose packed code compiles, and elsewhere from single elements; the
integers of a location are read right exactly where no packed chunk has elements. -/
theorem packed_fields_iff {number : UInt32} (nonzero : number ≠ 0)
    {pool : Reflect.DescriptorPool} {descriptor : DescriptorProto} {field : FieldDescriptorProto}
    (packed : Reflect.PackedField pool descriptor number field)
    {schema : Codegen.Schema} {fqn : String} {ty : Codegen.TyRef} (packable : ty.Packable) (text : String)
    (arm : SortedMap.get? (Codegen.genArms schema (schema.messageOf fqn)) number =
      some (Codegen.genRepeatedDecode ty (Codegen.normalizeSyntax text))) :
    ((Reflect.ReadsEvery pool descriptor nonzero field (fun _ => True) ↔
        Reflect.Own descriptor number ∧ field.type.getD .string ≠ .enum) ∧
      (Reflect.Own descriptor number →
        Reflect.ReadsEvery pool descriptor nonzero field (fun occurrence => ¬ occurrence.Chunked))) ∧
    (((Codegen.genRepeatedDecode ty (Codegen.normalizeSyntax text)).Compiles ∧
        Codegen.MergesEvery schema fqn nonzero ty (fun _ => True) ↔
        text = "proto3" ∧ ty.PacksCompiled) ∧
      (text ≠ "proto3" →
        Codegen.MergesEvery schema fqn nonzero ty (fun occurrence => ¬ occurrence.Chunked))) ∧
    LocationSkips 1 ∧ LocationSkips 2 :=
  ⟨⟨Reflect.readsEvery_iff packed nonzero, Reflect.readsEvery_single packed nonzero⟩,
    ⟨Codegen.mergesEvery_iff packable nonzero text arm, Codegen.mergesEvery_single packable nonzero arm⟩,
    fun _ _ _ => readsLocation_iff (.inl rfl), fun _ _ _ => readsLocation_iff (.inr rfl)⟩

section Example

private def packedField (t : FieldType) : FieldDescriptorProto :=
  { name := some "v", number := some 1, label := some .repeated, type := some t,
    typeName := if t = .enum then some ".E" else none }

private def packedDescriptor (t : FieldType) : DescriptorProto :=
  { name := some "M", field := [packedField t] }

private def packedPool (t : FieldType) : Reflect.DescriptorPool :=
  ⟨[("M", packedDescriptor t)], [], [], "proto3"⟩

private def packedSchema (t : FieldType) (text : String) : Codegen.Schema :=
  ⟨[("M", ⟨packedDescriptor t, Codegen.normalizeSyntax text⟩)], [], []⟩

end Example

/-- A `repeated int32` of a `proto3` message. -/
theorem packed_fields_int32 :
    ((Reflect.ReadsEvery (packedPool .int32) (packedDescriptor .int32) (by decide : (1 : UInt32) ≠ 0)
        (packedField .int32) (fun _ => True) ↔
        Reflect.Own (packedDescriptor .int32) 1 ∧ (packedField .int32).type.getD .string ≠ .enum) ∧
      (Reflect.Own (packedDescriptor .int32) 1 →
        Reflect.ReadsEvery (packedPool .int32) (packedDescriptor .int32) (by decide : (1 : UInt32) ≠ 0)
          (packedField .int32) (fun occurrence => ¬ occurrence.Chunked))) ∧
    (((Codegen.genRepeatedDecode (.scalar .int32) (Codegen.normalizeSyntax "proto3")).Compiles ∧
        Codegen.MergesEvery (packedSchema .int32 "proto3") "M" (by decide : (1 : UInt32) ≠ 0)
          (.scalar .int32) (fun _ => True) ↔
        "proto3" = "proto3" ∧ (Codegen.TyRef.scalar .int32).PacksCompiled) ∧
      ("proto3" ≠ "proto3" →
        Codegen.MergesEvery (packedSchema .int32 "proto3") "M" (by decide : (1 : UInt32) ≠ 0)
          (.scalar .int32) (fun occurrence => ¬ occurrence.Chunked))) ∧
    LocationSkips 1 ∧ LocationSkips 2 :=
  packed_fields_iff (by decide)
    (show Reflect.PackedField (packedPool .int32) (packedDescriptor .int32) 1 (packedField .int32) from
      ⟨by rfl, rfl, rfl⟩) (by decide) "proto3" (by rfl)

/-- The packed chunk `[1]` of a repeated enum is read as the value one, the length, and a
stray tag; that of a `proto2` `repeated int32` likewise; that of a location's path is skipped. -/
theorem not_packed_fields_chunk :
    Reflect.DynMsg.decode (packedPool .enum) (packedDescriptor .enum)
        (Reader.withLimits ⟨[0x0A, 0x01, 0x01], by decide⟩ .default) =
      .err (.wire (.invalidTag 0)) ∧
    Codegen.GenMsg.mergeFrom (packedSchema .int32 "proto2") "M" ((packedSchema .int32 "proto2").default "M")
        (Reader.withLimits ⟨[0x0A, 0x01, 0x01], by decide⟩ .default) = .err (.invalidTag 0) ∧
    descriptors.decode .location (Reader.withLimits ⟨[0x0A, 0x01, 0x01], by decide⟩ .default) =
      .ok ({} : Location) :=
  ⟨by rfl, by rfl, by rfl⟩

end TptProto
