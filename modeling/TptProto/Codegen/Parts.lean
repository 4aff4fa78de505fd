import TptProto.Codegen.Iteration
import TptProto.Codegen.PackedTrip

/-! The fields that the emitted `encode` writes for a value of a generated struct. -/

namespace TptProto.Codegen

open TptProto.Foundation TptProto.Core TptProto.Descriptor

/-- A field number and what is written after its tag. -/
abbrev Part := UInt32 × UnknownValue

section Parts

/-- What a primitive is written as. -/
def primWord (t : FieldType) (v : Val) : UnknownValue :=
  match t, v with
  | .sint32, .i32 v => .varint (encodeZigzag32 v).toUInt64
  | .sint64, .i64 v => .varint (encodeZigzag64 v)
  | .float, .f32 bits => .fixed32 bits
  | .double, .f64 bits => .fixed64 bits
  | t, v =>
    if isFixed32 t then .fixed32 v.asU32 else if isFixed64 t then .fixed64 v.asU64 else .varint v.asU64

variable (schema : Schema)

/-- What a value is written as. -/
def wordOf (ty : TyRef) (value : GenValue) : UnknownValue :=
  match ty, value with
  | .scalar .string, .string s => .lengthDelimited (asBytes s)
  | .scalar .bytes, .bytes b => .lengthDelimited b
  | .scalar t, .prim v => primWord t v
  | .enum fqn, .enum v => primWord .int32 (.i32 (v.asI32 (schema.enumOf fqn)))
  | .message fqn, .message m =>
    .lengthDelimited (match m.encode schema fqn with
      | .ok bytes => bytes
      | _ => [])
  | _, _ => .varint 0

/-- The bytes of a part after which nothing fails. -/
def partBytes (part : Part) : List UInt8 :=
  encodeVarint (Tag.raw part.1 part.2.wireType) ++ part.2.bytes

def entryPart (number : UInt32) (k v : TyRef) (entry : GenValue × GenValue) : Part :=
  (number, .lengthDelimited (partBytes (1, wordOf schema k entry.1) ++
    partBytes (2, wordOf schema v entry.2)))

/-- The parts of a struct field. -/
def slotParts (mode : SyntaxMode) (f : FieldDescriptorProto) (ty : TyRef) : Slot GenValue → List Part
  | .implicit value => if implicitGuard value then [(num f, wordOf schema ty value)] else []
  | .explicit none => []
  | .explicit (some value) => [(num f, wordOf schema ty value)]
  | .repeated values =>
    match genRepeatedEncode ty mode with
    | .each => values.map fun value => (num f, wordOf schema ty value)
    | .packed code =>
      if values.isEmpty then [] else [(num f, .lengthDelimited (code.body schema ty values))]
    | .nothing => []
  | .map entries => entries.map (entryPart schema (num f) (mapKv schema f).1 (mapKv schema f).2)

def fieldParts (d : MessageDef) (fields : List (UInt32 × Slot GenValue)) (f : FieldDescriptorProto) :
    List Part :=
  match SortedMap.get? fields (num f), TyRef.fromField f with
  | some slot, some ty => slotParts schema d.mode f ty slot
  | _, _ => []

/-- The parts of the oneofs from a declaration on. -/
def oneofParts (d : DescriptorProto) : Nat → List (Option (UInt32 × GenValue)) → List Part
  | _, [] => []
  | index, none :: rest => oneofParts d (index + 1) rest
  | index, some (number, value) :: rest =>
    match memberType d index number with
    | some ty => (number, wordOf schema ty value) :: oneofParts d (index + 1) rest
    | none => oneofParts d (index + 1) rest

/-- The known fields of a struct, in the order they are written. -/
def GenMsg.parts (fqn : String) (m : Struct) : List Part :=
  (plainFields (schema.messageOf fqn).descriptor).flatMap (fieldParts schema (schema.messageOf fqn) m.fields) ++
    oneofParts schema (schema.messageOf fqn).descriptor 0 m.oneofs

end Parts

section Sorting

theorem insertByNumber_perm (f : FieldDescriptorProto) (fields : List FieldDescriptorProto) :
    (insertByNumber f fields).Perm (f :: fields) := by
  induction fields with
  | nil => exact .refl _
  | cons g rest ih =>
    rw [insertByNumber]
    split
    · exact .refl _
    · exact (ih.cons g).trans (.swap f g rest)

theorem sortByNumber_perm (fields : List FieldDescriptorProto) : (sortByNumber fields).Perm fields := by
  induction fields with
  | nil => exact .refl _
  | cons f rest ih => exact (insertByNumber_perm f _).trans (ih.cons f)

theorem mem_of_plainFields {d : DescriptorProto} {f : FieldDescriptorProto} (member : f ∈ plainFields d) :
    f ∈ d.field :=
  (sortByNumber_perm d.field).mem_iff.mp (List.mem_filter.mp member).1

end Sorting

section Numbers

variable {schema : Schema}

theorem slotParts_number {mode : SyntaxMode} {f : FieldDescriptorProto} {ty : TyRef}
    {slot : Slot GenValue} {part : Part} (member : part ∈ slotParts schema mode f ty slot) :
    part.1 = num f := by
  cases slot with
  | implicit value =>
    simp only [slotParts] at member
    split at member
    · rw [List.mem_singleton.mp member]
    · cases member
  | explicit value =>
    cases value with
    | none => cases member
    | some value => rw [List.mem_singleton.mp member]
  | repeated values =>
    simp only [slotParts] at member
    split at member
    · obtain ⟨_, _, rfl⟩ := List.mem_map.mp member
      rfl
    · split at member
      · cases member
      · rw [List.mem_singleton.mp member]
    · cases member
  | map entries =>
    obtain ⟨_, _, rfl⟩ := List.mem_map.mp member
    rfl

theorem fieldParts_number {d : MessageDef} {fields : List (UInt32 × Slot GenValue)}
    {f : FieldDescriptorProto} {part : Part} (member : part ∈ fieldParts schema d fields f) :
    part.1 = num f := by
  unfold fieldParts at member
  split at member
  · exact slotParts_number member
  · cases member

theorem oneofParts_number {d : DescriptorProto} {index : Nat}
    {oneofs : List (Option (UInt32 × GenValue))} {part : Part}
    (member : part ∈ oneofParts schema d index oneofs) :
    ∃ i ty, memberType d i part.1 = some ty := by
  induction oneofs generalizing index with
  | nil => cases member
  | cons held rest ih =>
    cases held with
    | none => exact ih member
    | some held =>
      rw [oneofParts] at member
      split at member
      · rename_i ty named
        rcases List.mem_cons.mp member with rfl | later
        · exact ⟨index, ty, named⟩
        · exact ih later
      · exact ih member

end Numbers

section Encoded

variable {schema : Schema}

theorem writeValue_eq {number : UInt32} (nonzero : number ≠ 0) (value : UnknownValue) :
    writeValue (ε := Error) number value = .ok (partBytes (number, value)) := by
  rw [writeValue, writeTag_eq nonzero]
  rfl

theorem encPrim_eq {t : FieldType} {v : Val} (known : scalarRust t = some v.prim) (number : UInt32) :
    encPrim t number v = writeValue number (primWord t v) := by
  cases t <;> cases v <;> first | (cases known; done) | rfl

private theorem encValue_prim (t : FieldType) (v : Val) (inner : Option Encoded) (number : UInt32) :
    encValue schema number (.scalar t) (.prim v, inner) = encPrim t number v := by
  cases t <;> rfl

theorem wordOf_prim (t : FieldType) (v : Val) :
    wordOf schema (.scalar t) (.prim v) = primWord t v := by
  cases t <;> rfl

private theorem oneofParts_eq {d : DescriptorProto} {oneofs : List (Option (UInt32 × GenValue))}
    {index : Nat} (written : ∀ i number value, oneofs[i]? = some (some (number, value)) →
      ∃ ty, memberType d (index + i) number = some ty ∧ encValue schema number ty
        (value, value.fold encodeWith) = .ok (partBytes (number, wordOf schema ty value))) :
    writeEach (fun held => genOneofEncode schema d held.2 held.1)
        ((oneofs.map (Option.map fun held => (held.1, (held.2, held.2.fold encodeWith)))).zipIdx index) =
      .ok ((oneofParts schema d index oneofs).flatMap partBytes) := by
  induction oneofs generalizing index with
  | nil => rfl
  | cons held rest ih =>
    have later := @ih (index + 1) fun i number value found => by
      have here := written (i + 1) number value found
      rwa [← Nat.add_assoc, Nat.add_right_comm] at here
    rw [List.map_cons, List.zipIdx_cons, writeEach, later]
    cases held with
    | none => rfl
    | some held =>
      obtain ⟨number, value⟩ := held
      obtain ⟨ty, named, encoded⟩ := written 0 number value rfl
      rw [Nat.add_zero] at named
      have member : ((oneofMembers d index).find? fun f => num f = number).bind TyRef.fromField = some ty :=
        named
      simp only [Option.map_some, genOneofEncode, member, encoded, oneofParts, named,
        Outcome.ok_bind, List.flatMap_cons]

theorem memberType_carried {d : DescriptorProto} (carried : ∀ f ∈ d.field, Table.Carried (num f))
    {index : Nat} {number : UInt32} {ty : TyRef} (named : memberType d index number = some ty) :
    Table.Carried number := by
  obtain ⟨f, found, _⟩ := Option.bind_eq_some_iff.mp named
  have member := List.mem_of_find?_eq_some found
  have same : num f = number := by simpa using List.find?_some found
  rw [← same]
  exact carried f (List.mem_filter.mp member).1

private theorem unknown_encoded {unknown : UnknownFieldSet} (numbered : ∀ field ∈ unknown.fields, field.1 ≠ 0) :
    ∃ bytes : List UInt8, unknown.encode (ε := Error) = .ok bytes := by
  refine writeEach_isOk_iff.mpr fun field member => writeEach_isOk_iff.mpr fun value _ => ?_
  exact ⟨_, writeValue_eq (numbered field member) value⟩

/-- The fields of a struct are those of its message, and its members have types. -/
theorem StructOf.shape {fqn : String} {m : Struct} (typed : StructOf schema fqn m) :
    m.fields.map Prod.fst = (structFields (schema.messageOf fqn).descriptor).map num ∧
      (m.fields.map Prod.fst).Nodup ∧
      ∀ index number value, m.oneofs[index]? = some (some (number, value)) →
        (memberType (schema.messageOf fqn).descriptor index number).isSome := by
  cases typed with
  | mk names distinct _ _ typed => exact ⟨names, distinct, typed⟩

theorem StructOf.numbers {fqn : String} {m : Struct} (typed : StructOf schema fqn m) :
    ∀ f ∈ (schema.messageOf fqn).descriptor.field, Table.Carried (num f) := by
  cases typed with
  | mk _ _ carried => exact carried

theorem StructOf.slot {fqn : String} {m : Struct} (typed : StructOf schema fqn m)
    {f : FieldDescriptorProto} (plain : f ∈ plainFields (schema.messageOf fqn).descriptor) {ty : TyRef}
    (isType : TyRef.fromField f = some ty) {slot : Slot GenValue}
    (found : SortedMap.get? m.fields (num f) = some slot) :
    SlotOf schema (schema.messageOf fqn).mode f ty slot := by
  cases typed with
  | mk _ _ _ slots =>
    exact slots f (List.mem_filter.mpr ⟨plain, by rw [isType]; rfl⟩) ty isType slot found

theorem StructOf.carried {fqn : String} {m : Struct} (typed : StructOf schema fqn m) :
    ∀ part ∈ m.parts schema fqn, Table.Carried part.1 := by
  intro part member
  rcases List.mem_append.mp member with plain | held
  · obtain ⟨f, among, inside⟩ := List.mem_flatMap.mp plain
    rw [fieldParts_number inside]
    exact typed.numbers f (mem_of_plainFields among)
  · obtain ⟨i, ty, named⟩ := oneofParts_number held
    exact memberType_carried typed.numbers named

mutual

/-- A value is written as its word. -/
theorem ValueOf.encoded {ty : TyRef} {value : GenValue} :
    ValueOf schema ty value → ∀ number, number ≠ 0 →
      encValue schema number ty (value, value.fold encodeWith) =
        .ok (partBytes (number, wordOf schema ty value))
  | .prim _ known, number, nonzero => by
    rw [encValue_prim, wordOf_prim, encPrim_eq known, writeValue_eq nonzero]
  | .string text, _, nonzero => writeValue_eq nonzero (.lengthDelimited (asBytes text))
  | .bytes bytes, _, nonzero => writeValue_eq nonzero (.lengthDelimited bytes)
  | .enum fqn v, number, nonzero => (encPrim_eq rfl number).trans (writeValue_eq nonzero _)
  | @ValueOf.message _ fqn m inner, number, nonzero => by
    obtain ⟨unknown, _, encoded⟩ := StructOf.encoded inner
    have nested : foldStruct encodeWith m schema fqn = m.encode schema fqn := rfl
    simp only [encValue, GenValue.fold, Option.map_some, nested, wordOf, encoded]
    exact writeValue_eq nonzero (.lengthDelimited _)

/-- A struct is written as its parts and then the unknown fields. -/
theorem StructOf.encoded {fqn : String} {m : Struct} :
    StructOf schema fqn m → ∃ unknown : List UInt8, m.unknown.encode (ε := Error) = .ok unknown ∧
      m.encode schema fqn = .ok ((m.parts schema fqn).flatMap partBytes ++ unknown)
  | @StructOf.mk _ fqn fields oneofs unknown names distinct carried slots typed members numbered => by
    obtain ⟨rest, unknownEncoded⟩ := unknown_encoded numbered
    refine ⟨rest, unknownEncoded, ?_⟩
    have plain : writeEach (fun f => match SortedMap.get?
          (fields.map fun entry => (entry.1, entry.2.mapValues fun v => (v, v.fold encodeWith))) (num f),
          TyRef.fromField f with
        | some slot, some ty => genFieldEncode schema (schema.messageOf fqn).mode f ty slot
        | _, _ => .ok []) (plainFields (schema.messageOf fqn).descriptor) =
        .ok ((plainFields (schema.messageOf fqn).descriptor).flatMap fun f =>
          (fieldParts schema (schema.messageOf fqn) fields f).flatMap partBytes) := by
      refine writeEach_ok fun f member => ?_
      rw [SortedMap.get?_map, fieldParts]
      cases found : SortedMap.get? fields (num f) with
      | none => rfl
      | some slot =>
        cases named : TyRef.fromField f with
        | none => rfl
        | some ty =>
          have among : f ∈ structFields (schema.messageOf fqn).descriptor :=
            List.mem_filter.mpr ⟨member, by rw [named]; rfl⟩
          exact SlotOf.encoded (slots f among ty named slot found) (carried f (mem_of_plainFields member)).1
    have held : writeEach (fun held => genOneofEncode schema (schema.messageOf fqn).descriptor held.2 held.1)
        ((oneofs.map (Option.map fun held => (held.1, (held.2, held.2.fold encodeWith)))).zipIdx 0) =
        .ok ((oneofParts schema (schema.messageOf fqn).descriptor 0 oneofs).flatMap partBytes) := by
      refine oneofParts_eq fun i number value found => ?_
      rw [Nat.zero_add]
      obtain ⟨ty, named⟩ := Option.isSome_iff_exists.mp (typed i number value found)
      refine ⟨ty, named, ValueOf.encoded (members i number value found ty named) number ?_⟩
      exact (memberType_carried carried named).1
    rw [GenMsg.encode, foldStruct_eq, GenMsg.parts, List.flatMap_append, List.flatMap_assoc]
    refine Outcome.bind_eq_ok.mpr ⟨_, plain, Outcome.bind_eq_ok.mpr ⟨_, held, ?_⟩⟩
    exact Outcome.bind_eq_ok.mpr ⟨rest, unknownEncoded, rfl⟩

theorem SlotOf.encoded {mode : SyntaxMode} {f : FieldDescriptorProto} {ty : TyRef}
    {slot : Slot GenValue} :
    SlotOf schema mode f ty slot → num f ≠ 0 →
      genFieldEncode schema mode f ty (slot.mapValues fun v => (v, v.fold encodeWith)) =
        .ok ((slotParts schema mode f ty slot).flatMap partBytes)
  | @SlotOf.implicit _ _ _ _ value of, nonzero => by
    have encoded := ValueOf.encoded of (num f) nonzero
    simp only [Slot.mapValues, genFieldEncode, slotParts]
    split
    · rw [encoded, List.flatMap_singleton]
    · rfl
  | .absent _ _ _, _ => rfl
  | .present of, nonzero => by
    rw [Slot.mapValues, Option.map_some, genFieldEncode, ValueOf.encoded of (num f) nonzero, slotParts,
      List.flatMap_singleton]
  | @SlotOf.repeated _ _ _ _ values of, nonzero => by
    simp only [Slot.mapValues, genFieldEncode, slotParts]
    cases genRepeatedEncode ty mode with
    | each =>
      have each : writeEach (encValue schema (num f) ty) (values.map fun v => (v, v.fold encodeWith)) =
          .ok ((values.map fun v => (v, v.fold encodeWith)).flatMap fun entry =>
            partBytes (num f, wordOf schema ty entry.1)) := by
        refine writeEach_ok fun entry member => ?_
        obtain ⟨v, inside, rfl⟩ := List.mem_map.mp member
        exact ValueOf.encoded (of v inside) (num f) nonzero
      rw [RepeatedEncode.run, each, List.flatMap_map, List.flatMap_map]
    | packed code =>
      simp only [RepeatedEncode.run, List.map_map]
      have plain : values.map (Prod.fst ∘ fun v => (v, v.fold encodeWith)) = values := List.map_id _
      rw [plain]
      cases values with
      | nil => rfl
      | cons v rest =>
        rw [PackedEncode.run_eq nonzero (List.cons_ne_nil _ _)]
        exact congrArg Outcome.ok (List.append_nil _).symm
    | nothing => rfl
  | @SlotOf.map _ _ _ _ v t entries kv keys values distinct, nonzero => by
    have each : writeEach (fun entry => do
          let key ← encValue schema 1 (.scalar t) entry.1
          let value ← encValue schema 2 v entry.2
          let tag ← writeTag (num f) .lengthDelimited
          .ok (tag ++ writeLengthDelimited (key ++ value)))
        (entries.map fun entry =>
          ((entry.1, entry.1.fold encodeWith), (entry.2, entry.2.fold encodeWith))) =
        .ok ((entries.map fun entry =>
          ((entry.1, entry.1.fold encodeWith), (entry.2, entry.2.fold encodeWith))).flatMap fun entry =>
            partBytes (entryPart schema (num f) (.scalar t) v (entry.1.1, entry.2.1))) := by
      refine writeEach_ok fun entry member => ?_
      obtain ⟨pair, inside, rfl⟩ := List.mem_map.mp member
      have key := ValueOf.encoded (keys pair inside) 1 (by decide)
      have value := ValueOf.encoded (values pair inside) 2 (by decide)
      simp only [key, value, Outcome.ok_bind]
      exact writeValue_eq nonzero (.lengthDelimited _)
    simp only [Slot.mapValues, genFieldEncode, slotParts, kv]
    rw [each, List.flatMap_map, List.flatMap_map]

end

end Encoded

end TptProto.Codegen
