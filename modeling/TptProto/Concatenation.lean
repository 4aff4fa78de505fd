import TptProto.Codegen.Merge
import TptProto.Reflect.Merge

/-! Decoding one buffer after another as a merge, in the dynamic decoder and in generated code. -/

namespace TptProto

open Foundation Core Descriptor

/-- Decoding a concatenation merges exactly where no singular message field is replaced: for a
dynamic message none may be declared, nor a repeated extension, and for a generated one none of
implicit presence or in a oneof. -/
theorem concatenation_iff (set : FileDescriptorSet) (descriptor : DescriptorProto)
    (numbered : Reflect.TagNumbered (Reflect.DescriptorPool.fromSet set)) (schema : Codegen.Schema)
    (wellformed : Codegen.Wellformed schema) (fqn : String) :
    (Reflect.Concatenates (Reflect.DescriptorPool.fromSet set) descriptor ↔
      Reflect.ReplacesNothing (Reflect.DescriptorPool.fromSet set) descriptor) ∧
    (Codegen.Concatenates schema fqn ↔ Codegen.ReplacesNothing schema fqn) := by
  have tabled : Reflect.Tabled (Reflect.DescriptorPool.fromSet set) := by
    rw [Reflect.fromSet_eq]
    exact Reflect.tabled_inOrder _ _
  exact ⟨Reflect.concatenates_iff numbered tabled, Codegen.concatenates_iff wellformed⟩

/-- `message Point { int32 x = 1; int32 y = 2; }`. -/
private def point : DescriptorProto where
  name := some "Point"
  field :=
    [{ name := some "x", number := some 1, label := some .optional, type := some .int32 },
      { name := some "y", number := some 2, label := some .optional, type := some .int32 }]

/-- `message Place { Point at = 1; }`. -/
private def place : DescriptorProto where
  name := some "Place"
  field :=
    [{ name := some "at", number := some 1, label := some .optional, type := some .message,
       typeName := some ".Point" }]

private def places : FileDescriptorSet where
  file := [{ messageType := [place, point], syntaxName := some "proto3" }]

private def placesSchema : Codegen.Schema where
  messages := [(".Place", ⟨place, .proto3⟩), (".Point", ⟨point, .proto3⟩)]
  enums := []
  mapEntries := []

private theorem places_numbered :
    Reflect.TagNumbered (Reflect.DescriptorPool.fromSet places) := by
  refine ⟨fun entry member field inside number same => ?_, fun number ext found => ?_⟩
  · have all : ∀ entry ∈ (Reflect.DescriptorPool.fromSet places).messages,
        ∀ field ∈ entry.2.field, field.number = some 1 ∨ field.number = some 2 := by decide
    rcases all entry member field inside with one | two
    · rw [one] at same
      cases same
      decide
    · rw [two] at same
      cases same
      decide
  · cases found

private theorem placesSchema_arms (fqn : String) :
    ∀ entry ∈ Codegen.genArms placesSchema (placesSchema.messageOf fqn),
      entry ∈ [(1, Codegen.Arm.replace ".Point"), (1, .assign (.scalar .int32)),
        (2, .assign (.scalar .int32))] := by
  unfold Codegen.Schema.messageOf
  simp only [placesSchema, SortedMap.get?_cons, SortedMap.get?_nil]
  split
  · decide
  · split <;> decide

private theorem placesSchema_wellformed : Codegen.Wellformed placesSchema := by
  constructor
  · intro fqn entry member
    have arm := placesSchema_arms fqn entry member
    simp only [List.mem_cons, List.not_mem_nil, or_false] at arm
    rcases arm with rfl | rfl | rfl
    · trivial
    · exact (by decide : (Codegen.TyRef.scalar .int32).Plain)
    · exact (by decide : (Codegen.TyRef.scalar .int32).Plain)
  · intro fqn entry member
    have arm := placesSchema_arms fqn entry member
    simp only [List.mem_cons, List.not_mem_nil, or_false] at arm
    rcases arm with rfl | rfl | rfl <;> decide

/-- A message type without message fields merges under both decoders. -/
theorem concatenation_point :
    (Reflect.Concatenates (Reflect.DescriptorPool.fromSet places) point ↔
      Reflect.ReplacesNothing (Reflect.DescriptorPool.fromSet places) point) ∧
    (Codegen.Concatenates placesSchema ".Point" ↔ Codegen.ReplacesNothing placesSchema ".Point") :=
  concatenation_iff places point places_numbered placesSchema placesSchema_wellformed ".Point"

/-- Field 1 with a message of two bytes. -/
private def nested (first second : UInt8) : Item :=
  ⟨⟨1, .lengthDelimited, Tag.nonzero_one⟩, .lengthDelimited [first, second]⟩

private theorem nested_items {wireOf : Tag → WireType} (first second : UInt8)
    (kind : wireOf (nested first second).tag = .lengthDelimited) :
    Items wireOf [nested first second] [0x0A, 2, first, second] := by
  refine .single ⟨[0x0A], 10, [2, first, second], rfl, wireVarint_encodeVarint 10, rfl, rfl,
    kind.symm, ?_⟩
  exact .lengthDelimited (wireVarint_encodeVarint 2) rfl

private theorem nested_affords {r : Reader} (limits : r.limits = .default) (fresh : r.fieldCount = 0)
    (short : r.bytesRead + r.rest.length ≤ 8) :
    Affords r ([nested 8 1] ++ [nested 0x10 2]) := by
  refine ⟨fun item member => ?_, ?_, ?_⟩
  · rw [limits]
    simp only [List.singleton_append, List.mem_cons, List.not_mem_nil, or_false] at member
    rcases member with rfl | rfl <;> rfl
  · rw [limits]
    exact decide_eq_true (Nat.le_trans short (by decide))
  · rw [limits, fresh]
    rfl

/-- Results that are messages of a kind. -/
private def leaves {ε α : Type} (kind : α → Bool) : Outcome ε α → Bool
  | .ok value => kind value
  | _ => false

private theorem exists_of_leaves {ε α : Type} {kind : α → Bool} {result : Outcome ε α}
    (left : leaves kind result = true) : ∃ value, result = .ok value ∧ kind value = true := by
  cases result with
  | ok value => exact ⟨value, rfl, left⟩
  | err | panic | outOfFuel => cases left

private theorem exists_merged {ε α β : Type} {kind : β → Bool} {result : Outcome ε α}
    {next : α → Outcome ε β} (left : leaves (fun value => leaves kind (next value)) result = true) :
    ∃ value, result = .ok value ∧ ∃ final, next value = .ok final ∧ kind final = true := by
  obtain ⟨value, same, after⟩ := exists_of_leaves left
  exact ⟨value, same, exists_of_leaves after⟩

/-- Whether the `at` of a place has an `x`. -/
private def reflectedX (msg : Reflect.DynamicMessage) : Bool :=
  match msg.getField 1 with
  | some (.message inner) => (inner.getField 1).isSome
  | _ => false

private def generatedX (msg : Codegen.Struct) : Bool :=
  match SortedMap.get? msg.fields 1 with
  | some (.implicit (.message inner)) =>
    match SortedMap.get? inner.fields 1 with
    | some (.implicit (.prim (.i32 x))) => x != 0
    | _ => false
  | _ => false

/-- After `at { x: 1 }`, `at { y: 2 }` drops the `x` in both decoders. -/
theorem not_concatenates :
    ¬ Reflect.Concatenates (Reflect.DescriptorPool.fromSet places) place ∧
      ¬ Codegen.Concatenates placesSchema ".Place" := by
  constructor
  · intro concatenates
    obtain ⟨msg, decoded, final, merged, kept⟩ := exists_merged
      (by decide +kernel : leaves (fun msg => leaves reflectedX ([nested 0x10 2].foldlM
        (Reflect.mergeItem (.fromSet places) place .default 0) msg))
        (Reflect.DynMsg.decode (.fromSet places) place
          (Reflect.startAt ⟨[0x0A, 2, 8, 1], by decide⟩ .default 0)) = true)
    obtain ⟨later, decoded', _⟩ := exists_of_leaves
      (by decide +kernel : leaves (fun _ => true) (Reflect.DynMsg.decode (.fromSet places) place
        (Reflect.startAt ⟨[0x0A, 2, 0x10, 2], by decide⟩ .default 0)) = true)
    obtain ⟨whole, decodedWhole, dropped⟩ := exists_of_leaves
      (by decide +kernel : leaves (fun msg => !reflectedX msg) (Reflect.DynMsg.decode
        (.fromSet places) place (Reflect.startAt ⟨[0x0A, 2, 8, 1, 0x0A, 2, 0x10, 2], by decide⟩
          .default 0)) = true)
    have same := (concatenates _ _ _ _ _ _ _ _ _ rfl decoded decoded' (nested_items 8 1 rfl)
      (nested_items 0x10 2 rfl) (nested_affords rfl rfl (by decide)) _).mp decodedWhole
    obtain rfl := Outcome.ok.inj (merged.symm.trans same)
    rw [kept] at dropped
    cases dropped
  · intro concatenates
    obtain ⟨msg, decoded, final, merged, kept⟩ := exists_merged
      (by decide +kernel : leaves (fun msg => leaves generatedX ([nested 0x10 2].foldlM
        (Codegen.mergeItem placesSchema (Codegen.genArms placesSchema
          (placesSchema.messageOf ".Place")) .default 0) msg))
        (Codegen.GenMsg.decode placesSchema ".Place" ⟨[0x0A, 2, 8, 1], by decide⟩ .default) = true)
    obtain ⟨later, decoded', _⟩ := exists_of_leaves
      (by decide +kernel : leaves (fun _ => true) (Codegen.GenMsg.decode placesSchema ".Place"
        ⟨[0x0A, 2, 0x10, 2], by decide⟩ .default) = true)
    obtain ⟨whole, decodedWhole, dropped⟩ := exists_of_leaves
      (by decide +kernel : leaves (fun msg => !generatedX msg) (Codegen.GenMsg.decode placesSchema
        ".Place" ⟨[0x0A, 2, 8, 1, 0x0A, 2, 0x10, 2], by decide⟩ .default) = true)
    have same := concatenates _ _ ⟨[0x0A, 2, 8, 1, 0x0A, 2, 0x10, 2], by decide⟩ _ _ _ _ _ rfl decoded
      decoded' (nested_items 8 1 rfl) (nested_items 0x10 2 rfl)
      (nested_affords rfl rfl (by decide)) whole
    have mergedWhole := same.fieldwise.mp (same.joined.mp decodedWhole)
    obtain rfl := Outcome.ok.inj (merged.symm.trans mergedWhole)
    rw [kept] at dropped
    cases dropped

end TptProto
