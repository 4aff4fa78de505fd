import TptProto.Codegen.Message
import TptProto.Core.TableWritten

/-! Values of the generated structs that are equal but for the order in which their hash maps
are iterated. -/

namespace TptProto.Codegen

open TptProto.Foundation TptProto.Core TptProto.Descriptor

section Values

/-- The fields that are struct fields of their own and have a type. -/
def structFields (d : DescriptorProto) : List FieldDescriptorProto :=
  (plainFields d).filter fun f => (TyRef.fromField f).isSome

/-- The type of the member of a oneof with a number. -/
def memberType (d : DescriptorProto) (index : Nat) (number : UInt32) : Option TyRef :=
  ((oneofMembers d index).find? fun f => num f = number).bind TyRef.fromField

variable (schema : Schema)

mutual

/-- A value of the Rust type that a field type is translated to. -/
inductive ValueOf : TyRef → GenValue → Prop
  | prim {t : FieldType} {v : Val} (plain : t ≠ .enum) (known : scalarRust t = some v.prim) :
      ValueOf (.scalar t) (.prim v)
  | string (text : String) : ValueOf (.scalar .string) (.string text)
  | bytes (bytes : List UInt8) : ValueOf (.scalar .bytes) (.bytes bytes)
  | enum (fqn : String) (v : EnumVal) : ValueOf (.enum fqn) (.enum v)
  | message {fqn : String} {m : Struct} (inner : StructOf fqn m) : ValueOf (.message fqn) (.message m)

/-- A value of the struct generated for a message, whose fields are told apart by their numbers. -/
inductive StructOf : String → Struct → Prop
  | mk {fqn : String} {fields : List (UInt32 × Slot GenValue)}
      {oneofs : List (Option (UInt32 × GenValue))} {unknown : UnknownFieldSet}
      (names : fields.map Prod.fst = (structFields (schema.messageOf fqn).descriptor).map num)
      (distinct : (fields.map Prod.fst).Nodup)
      (carried : ∀ f ∈ (schema.messageOf fqn).descriptor.field, Table.Carried (num f))
      (slots : ∀ f ∈ structFields (schema.messageOf fqn).descriptor, ∀ ty, TyRef.fromField f = some ty →
        ∀ slot, SortedMap.get? fields (num f) = some slot →
          SlotOf (schema.messageOf fqn).mode f ty slot)
      (typed : ∀ index number value, oneofs[index]? = some (some (number, value)) →
        (memberType (schema.messageOf fqn).descriptor index number).isSome)
      (members : ∀ index number value, oneofs[index]? = some (some (number, value)) →
        ∀ ty, memberType (schema.messageOf fqn).descriptor index number = some ty → ValueOf ty value)
      (numbered : ∀ field ∈ unknown.fields, field.1 ≠ 0) : StructOf fqn ⟨fields, oneofs, unknown⟩

/-- A value of a struct field. The keys of a map are scalars and differ from each other. -/
inductive SlotOf : SyntaxMode → FieldDescriptorProto → TyRef → Slot GenValue → Prop
  | implicit {mode : SyntaxMode} {f : FieldDescriptorProto} {ty : TyRef} {value : GenValue}
      (of : ValueOf ty value) : SlotOf mode f ty (.implicit value)
  | absent (mode : SyntaxMode) (f : FieldDescriptorProto) (ty : TyRef) : SlotOf mode f ty (.explicit none)
  | present {mode : SyntaxMode} {f : FieldDescriptorProto} {ty : TyRef} {value : GenValue}
      (of : ValueOf ty value) : SlotOf mode f ty (.explicit (some value))
  | repeated {mode : SyntaxMode} {f : FieldDescriptorProto} {ty : TyRef} {values : List GenValue}
      (of : ∀ value ∈ values, ValueOf ty value) : SlotOf mode f ty (.repeated values)
  | map {mode : SyntaxMode} {f : FieldDescriptorProto} {ty v : TyRef} {t : FieldType}
      {entries : List (GenValue × GenValue)} (kv : mapKv schema f = (.scalar t, v))
      (keys : ∀ entry ∈ entries, ValueOf (.scalar t) entry.1)
      (values : ∀ entry ∈ entries, ValueOf v entry.2) (distinct : (entries.map Prod.fst).Nodup) :
      SlotOf mode f ty (.map entries)

end

end Values

section Orders

mutual

/-- The same value, but for the order in which the maps in it are iterated. -/
inductive Reordered : GenValue → GenValue → Prop
  | prim (v : Val) : Reordered (.prim v) (.prim v)
  | string (text : String) : Reordered (.string text) (.string text)
  | bytes (bytes : List UInt8) : Reordered (.bytes bytes) (.bytes bytes)
  | enum (v : EnumVal) : Reordered (.enum v) (.enum v)
  | message {m n : Struct} (inner : StructReordered m n) : Reordered (.message m) (.message n)

inductive StructReordered : Struct → Struct → Prop
  | mk {fields fields' : List (UInt32 × Slot GenValue)}
      {oneofs oneofs' : List (Option (UInt32 × GenValue))} {unknown : UnknownFieldSet}
      (slots : FieldsReordered fields fields') (members : OneofsReordered oneofs oneofs') :
      StructReordered ⟨fields, oneofs, unknown⟩ ⟨fields', oneofs', unknown⟩

inductive FieldsReordered :
    List (UInt32 × Slot GenValue) → List (UInt32 × Slot GenValue) → Prop
  | nil : FieldsReordered [] []
  | cons {number : UInt32} {slot slot' : Slot GenValue} {rest rest' : List (UInt32 × Slot GenValue)}
      (head : SlotReordered slot slot') (tail : FieldsReordered rest rest') :
      FieldsReordered ((number, slot) :: rest) ((number, slot') :: rest')

inductive SlotReordered : Slot GenValue → Slot GenValue → Prop
  | implicit {v w : GenValue} (inner : Reordered v w) : SlotReordered (.implicit v) (.implicit w)
  | absent : SlotReordered (.explicit none) (.explicit none)
  | present {v w : GenValue} (inner : Reordered v w) :
      SlotReordered (.explicit (some v)) (.explicit (some w))
  | repeated {values values' : List GenValue} (inner : ValuesReordered values values') :
      SlotReordered (.repeated values) (.repeated values')
  | map {entries entries' : List (GenValue × GenValue)} (inner : EntriesReordered entries entries') :
      SlotReordered (.map entries) (.map entries')

inductive ValuesReordered : List GenValue → List GenValue → Prop
  | nil : ValuesReordered [] []
  | cons {v w : GenValue} {rest rest' : List GenValue} (head : Reordered v w)
      (tail : ValuesReordered rest rest') : ValuesReordered (v :: rest) (w :: rest')

/-- Any entry comes first, and the others follow in some order. -/
inductive EntriesReordered : List (GenValue × GenValue) → List (GenValue × GenValue) → Prop
  | nil : EntriesReordered [] []
  | next {key v w : GenValue} {before after order : List (GenValue × GenValue)}
      (head : Reordered v w) (others : EntriesReordered (before ++ after) order) :
      EntriesReordered (before ++ (key, v) :: after) ((key, w) :: order)

inductive OneofsReordered :
    List (Option (UInt32 × GenValue)) → List (Option (UInt32 × GenValue)) → Prop
  | nil : OneofsReordered [] []
  | absent {rest rest' : List (Option (UInt32 × GenValue))} (tail : OneofsReordered rest rest') :
      OneofsReordered (none :: rest) (none :: rest')
  | held {number : UInt32} {v w : GenValue} {rest rest' : List (Option (UInt32 × GenValue))}
      (head : Reordered v w) (tail : OneofsReordered rest rest') :
      OneofsReordered (some (number, v) :: rest) (some (number, w) :: rest')

end

theorem FieldsReordered.names {fields fields' : List (UInt32 × Slot GenValue)}
    (walked : FieldsReordered fields fields') : fields'.map Prod.fst = fields.map Prod.fst := by
  induction fields generalizing fields' with
  | nil =>
    cases walked
    rfl
  | cons entry rest ih =>
    cases walked with
    | cons _ tail => rw [List.map_cons, List.map_cons, ih tail]

theorem FieldsReordered.get? {fields fields' : List (UInt32 × Slot GenValue)}
    (walked : FieldsReordered fields fields') {number : UInt32} {slot' : Slot GenValue}
    (found : SortedMap.get? fields' number = some slot') :
    ∃ slot, SortedMap.get? fields number = some slot ∧ SlotReordered slot slot' := by
  induction fields generalizing fields' with
  | nil =>
    cases walked
    cases found
  | cons entry rest ih =>
    cases walked with
    | cons head tail =>
      rw [SortedMap.get?_cons] at found ⊢
      split at found
      · rename_i here
        cases found
        exact ⟨_, if_pos here, head⟩
      · rename_i other
        rw [if_neg other]
        exact ih tail found

theorem OneofsReordered.get? {oneofs oneofs' : List (Option (UInt32 × GenValue))}
    (walked : OneofsReordered oneofs oneofs') {index : Nat} {number : UInt32} {w : GenValue}
    (found : oneofs'[index]? = some (some (number, w))) :
    ∃ v, oneofs[index]? = some (some (number, v)) ∧ Reordered v w := by
  induction oneofs generalizing oneofs' index with
  | nil =>
    cases walked
    cases found
  | cons held rest ih =>
    cases walked with
    | absent tail =>
      cases index with
      | zero => cases found
      | succ index => exact ih tail found
    | held head tail =>
      cases index with
      | zero =>
        cases found
        exact ⟨_, rfl, head⟩
      | succ index => exact ih tail found

theorem EntriesReordered.keys {entries order : List (GenValue × GenValue)}
    (walked : EntriesReordered entries order) : (order.map Prod.fst).Perm (entries.map Prod.fst) := by
  induction order generalizing entries with
  | nil =>
    cases walked
    exact .nil
  | cons entry rest ih =>
    cases walked with
    | @next key v w before after _ head others =>
      rw [List.map_append, List.map_cons]
      refine ((ih others).cons key).trans ?_
      rw [List.map_append]
      exact List.perm_middle.symm

theorem EntriesReordered.source {entries order : List (GenValue × GenValue)}
    (walked : EntriesReordered entries order) {key w : GenValue} (member : (key, w) ∈ order) :
    ∃ v, (key, v) ∈ entries ∧ Reordered v w := by
  induction order generalizing entries with
  | nil => cases member
  | cons entry rest ih =>
    cases walked with
    | @next key' v w' before after _ head others =>
      rcases List.mem_cons.mp member with same | later
      · cases same
        exact ⟨v, by simp, head⟩
      · obtain ⟨v', inside, reordered⟩ := ih others later
        refine ⟨v', ?_, reordered⟩
        rcases List.mem_append.mp inside with first | last <;> simp [*]

theorem EntriesReordered.length_eq {entries order : List (GenValue × GenValue)}
    (walked : EntriesReordered entries order) : order.length = entries.length := by
  simpa using walked.keys.length_eq

theorem ValuesReordered.length_eq {values values' : List GenValue}
    (walked : ValuesReordered values values') : values'.length = values.length := by
  induction values generalizing values' with
  | nil =>
    cases walked
    rfl
  | cons v rest ih =>
    cases walked with
    | cons _ tail => rw [List.length_cons, List.length_cons, ih tail]

theorem ValuesReordered.source {values values' : List GenValue}
    (walked : ValuesReordered values values') {w : GenValue} (member : w ∈ values') :
    ∃ v ∈ values, Reordered v w := by
  induction values generalizing values' with
  | nil =>
    cases walked
    cases member
  | cons v rest ih =>
    cases walked with
    | cons head tail =>
      rcases List.mem_cons.mp member with rfl | later
      · exact ⟨v, List.mem_cons_self, head⟩
      · obtain ⟨v', inside, reordered⟩ := ih tail later
        exact ⟨v', List.mem_cons_of_mem _ inside, reordered⟩

end Orders

section Kept

variable {schema : Schema}

mutual

/-- What a type holds does not depend on the order of iteration. -/
theorem Reordered.typed {ty : TyRef} {v w : GenValue} :
    ValueOf schema ty v → Reordered v w → ValueOf schema ty w
  | .prim plain known, .prim _ => .prim plain known
  | .string text, .string _ => .string text
  | .bytes bytes, .bytes _ => .bytes bytes
  | .enum fqn v, .enum _ => .enum fqn v
  | .message inner, .message deeper => .message (StructReordered.typed inner deeper)

theorem StructReordered.typed {fqn : String} {m n : Struct} :
    StructOf schema fqn m → StructReordered m n → StructOf schema fqn n
  | .mk names distinct carried slots typed members numbered, .mk fields oneofs => by
    refine .mk (fields.names.trans names) (fields.names ▸ distinct) carried ?_ ?_ ?_ numbered
    · intro f member ty named slot' found
      obtain ⟨slot, source, reordered⟩ := fields.get? found
      exact SlotReordered.typed (slots f member ty named slot source) reordered
    · intro index number w found
      obtain ⟨v, source, _⟩ := oneofs.get? found
      exact typed index number v source
    · intro index number w found ty named
      obtain ⟨v, source, reordered⟩ := oneofs.get? found
      exact Reordered.typed (members index number v source ty named) reordered

theorem SlotReordered.typed {mode : SyntaxMode} {f : FieldDescriptorProto} {ty : TyRef}
    {slot slot' : Slot GenValue} :
    SlotOf schema mode f ty slot → SlotReordered slot slot' → SlotOf schema mode f ty slot'
  | .implicit of, .implicit inner => .implicit (Reordered.typed of inner)
  | .absent _ _ _, .absent => .absent _ _ _
  | .present of, .present inner => .present (Reordered.typed of inner)
  | .repeated of, .repeated inner => by
    refine .repeated fun w member => ?_
    obtain ⟨v, inside, reordered⟩ := inner.source member
    exact Reordered.typed (of v inside) reordered
  | .map kv keys values distinct, .map inner => by
    refine .map kv (fun entry member => ?_) (fun entry member => ?_)
      (inner.keys.nodup_iff.mpr distinct)
    · obtain ⟨v, inside, _⟩ := inner.source member
      exact keys (entry.1, v) inside
    · obtain ⟨v, inside, reordered⟩ := inner.source member
      exact Reordered.typed (values (entry.1, v) inside) reordered

end

private theorem isEmpty_of_length_eq {α β : Type} {xs : List α} {ys : List β} (same : ys.length = xs.length) :
    xs.isEmpty = ys.isEmpty := by
  cases xs <;> cases ys <;> simp_all

private theorem OneofsReordered.any_eq {oneofs oneofs' : List (Option (UInt32 × GenValue))}
    (walked : OneofsReordered oneofs oneofs') : oneofs.any Option.isSome = oneofs'.any Option.isSome := by
  induction oneofs generalizing oneofs' with
  | nil =>
    cases walked
    rfl
  | cons held rest ih =>
    cases walked with
    | absent tail => simpa using ih tail
    | held => rfl

mutual

/-- Whether a value is its type's default does not depend on the order of iteration. -/
theorem Reordered.differs {v w : GenValue} :
    Reordered v w → Codegen.differs (v, v.fold structDiffers) = Codegen.differs (w, w.fold structDiffers)
  | .prim _ | .string _ | .bytes _ | .enum _ => rfl
  | .message inner => StructReordered.differs inner

private theorem StructReordered.differs {m n : Struct} :
    StructReordered m n → foldStruct structDiffers m = foldStruct structDiffers n
  | .mk fields oneofs => by
    have slots := FieldsReordered.differs fields
    have members := oneofs.any_eq
    simp only [foldStruct_eq, structDiffers, GenMsg.mapValues, List.any_map, Function.comp_def,
      Option.isSome_map]
    rw [slots, members]

private theorem FieldsReordered.differs {fields fields' : List (UInt32 × Slot GenValue)} :
    FieldsReordered fields fields' →
      (fields.any fun entry => (entry.2.mapValues fun v => (v, v.fold structDiffers)).differs) =
        fields'.any fun entry => (entry.2.mapValues fun v => (v, v.fold structDiffers)).differs
  | .nil => rfl
  | .cons head tail => by
    simp only [List.any_cons, SlotReordered.differs head, FieldsReordered.differs tail]

private theorem SlotReordered.differs {slot slot' : Slot GenValue} :
    SlotReordered slot slot' → (slot.mapValues fun v => (v, v.fold structDiffers)).differs =
      (slot'.mapValues fun v => (v, v.fold structDiffers)).differs
  | .implicit inner => Reordered.differs inner
  | .absent | .present _ => rfl
  | .repeated inner => by
    simp only [Slot.mapValues, Slot.differs, List.isEmpty_map, isEmpty_of_length_eq inner.length_eq]
  | .map inner => by
    simp only [Slot.mapValues, Slot.differs, List.isEmpty_map, isEmpty_of_length_eq inner.length_eq]

end

theorem Reordered.guard {v w : GenValue} (walked : Reordered v w) : implicitGuard v = implicitGuard w :=
  walked.differs

theorem FieldsReordered.eq_of {fields fields' : List (UInt32 × Slot GenValue)}
    (walked : FieldsReordered fields fields')
    (slots : ∀ number slot slot', (number, slot) ∈ fields → (number, slot') ∈ fields' →
      SlotReordered slot slot' → slot = slot') : fields = fields' := by
  induction fields generalizing fields' with
  | nil =>
    cases walked
    rfl
  | cons entry rest ih =>
    cases walked with
    | @cons number slot slot' _ rest' head tail =>
      obtain rfl := slots number slot slot' List.mem_cons_self List.mem_cons_self head
      rw [ih tail fun number slot slot' member member' =>
        slots number slot slot' (List.mem_cons_of_mem _ member) (List.mem_cons_of_mem _ member')]

theorem ValuesReordered.eq_of {β : Type} {values values' : List GenValue}
    (walked : ValuesReordered values values') (word : GenValue → β) (words : values.map word = values'.map word)
    (each : ∀ v ∈ values, ∀ w, Reordered v w → word v = word w → v = w) : values = values' := by
  induction values generalizing values' with
  | nil =>
    cases walked
    rfl
  | cons v rest ih =>
    cases walked with
    | @cons _ w _ rest' head tail =>
      rw [List.map_cons, List.map_cons, List.cons.injEq] at words
      obtain rfl := each v List.mem_cons_self w head words.1
      rw [ih tail words.2 fun v member => each v (List.mem_cons_of_mem _ member)]

/-- Entries that are told apart by what they become are in the same order if they become the same. -/
theorem EntriesReordered.eq_of {β : Type} {entries order : List (GenValue × GenValue)}
    {part : GenValue × GenValue → β} (walked : EntriesReordered entries order)
    (distinct : (entries.map Prod.fst).Nodup) (parts : entries.map part = order.map part)
    (each : ∀ entry ∈ entries, ∀ entry' ∈ order, part entry = part entry' →
      entry.1 = entry'.1 ∧ (Reordered entry.2 entry'.2 → entry.2 = entry'.2)) : entries = order := by
  refine List.ext_getElem walked.length_eq.symm fun i inside inside' => ?_
  have member := List.getElem_mem inside
  have member' := List.getElem_mem inside'
  have same : part entries[i] = part order[i] := by
    have both := congrArg (fun parts => parts[i]?) parts
    simpa [List.getElem?_map, inside, inside'] using both
  obtain ⟨key, value⟩ := each _ member _ member' same
  obtain ⟨v, source, reordered⟩ := @EntriesReordered.source _ _ walked order[i].1 order[i].2 member'
  have here : (order[i].1, entries[i].2) ∈ entries := key ▸ member
  obtain rfl := SortedMap.value_unique distinct source here
  exact Prod.ext key (value reordered)

theorem OneofsReordered.eq_of_none {oneofs oneofs' : List (Option (UInt32 × GenValue))}
    (walked : OneofsReordered oneofs oneofs') (none : oneofs.any Option.isSome = false) :
    oneofs = oneofs' := by
  induction oneofs generalizing oneofs' with
  | nil =>
    cases walked
    rfl
  | cons held rest ih =>
    cases walked with
    | absent tail => rw [ih tail (by simpa using none)]
    | held => cases none

mutual

/-- A default value has nothing to reorder. -/
theorem Reordered.eq_of_default {v w : GenValue} :
    Reordered v w → Codegen.differs (v, v.fold structDiffers) = false → v = w
  | .prim _, _ | .string _, _ | .bytes _, _ | .enum _, _ => rfl
  | .message inner, default => congrArg GenValue.message (StructReordered.eq_of_default inner default)

private theorem StructReordered.eq_of_default {m n : Struct} :
    StructReordered m n → foldStruct structDiffers m = false → m = n
  | @StructReordered.mk fields fields' oneofs oneofs' unknown slots members, default => by
    simp only [foldStruct_eq, structDiffers, GenMsg.mapValues, List.any_map, Function.comp_def,
      Option.isSome_map, Bool.or_eq_false_iff] at default
    rw [FieldsReordered.eq_of_default slots default.1.1, members.eq_of_none default.1.2]

private theorem FieldsReordered.eq_of_default {fields fields' : List (UInt32 × Slot GenValue)} :
    FieldsReordered fields fields' →
      (fields.any fun entry => (entry.2.mapValues fun v => (v, v.fold structDiffers)).differs) = false →
      fields = fields'
  | .nil, _ => rfl
  | .cons head tail, default => by
    rw [List.any_cons, Bool.or_eq_false_iff] at default
    rw [SlotReordered.eq_of_default head default.1, FieldsReordered.eq_of_default tail default.2]

private theorem SlotReordered.eq_of_default {slot slot' : Slot GenValue} :
    SlotReordered slot slot' → (slot.mapValues fun v => (v, v.fold structDiffers)).differs = false →
      slot = slot'
  | .implicit inner, default => congrArg Slot.implicit (Reordered.eq_of_default inner default)
  | .absent, _ => rfl
  | .present _, default => nomatch default
  | .repeated inner, default => by
    cases inner with
    | nil => rfl
    | cons => cases default
  | @SlotReordered.map entries entries' inner, default => by
    have empty : entries = [] := by simpa [Slot.differs, Slot.mapValues] using default
    subst empty
    rw [List.eq_nil_of_length_eq_zero inner.length_eq]

end

/-- What is left out as a default has nothing to reorder. -/
theorem Reordered.eq_of_guard {v w : GenValue} (walked : Reordered v w)
    (written : implicitGuard v = true → v = w) : v = w := by
  cases guarded : implicitGuard v with
  | false => exact walked.eq_of_default guarded
  | true => exact written guarded

end Kept

end TptProto.Codegen
