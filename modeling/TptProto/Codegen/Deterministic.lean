import TptProto.Codegen.Parts

/-! Which equal values of a generated struct are written as the same bytes, and when the known
fields come in the order of their numbers. -/

namespace TptProto.Codegen

open TptProto.Foundation TptProto.Core TptProto.Descriptor

section Statement

/-- The fields in some bytes come in ascending order of their numbers. -/
def Ascending (bytes : List UInt8) : Prop :=
  ∃ items, Items Tag.wireType items bytes ∧
    items.Pairwise fun first second => first.tag.fieldNumber ≤ second.tag.fieldNumber

/-- Two values are encoded to the same bytes, and the known fields come first and in ascending order. -/
def Deterministic (schema : Schema) (fqn : String) (v w : Struct) : Prop :=
  ∃ known unknown, v.unknown.encode (ε := Error) = .ok unknown ∧
    v.encode schema fqn = .ok (known ++ unknown) ∧ w.encode schema fqn = .ok (known ++ unknown) ∧
    Ascending known

/-- Whether a struct field holds something to write. -/
def Slot.occupied : Slot GenValue → Bool
  | .implicit value => implicitGuard value
  | .explicit value => value.isSome
  | .repeated values => !values.isEmpty
  | .map entries => !entries.isEmpty

/-- The numbers of the oneof members that are held, by declaration. -/
def GenMsg.held (m : Struct) : List UInt32 := m.oneofs.filterMap fun held => held.map Prod.fst

/-- The oneof members held have ascending numbers, none below that of another field that is written. -/
structure MembersLast (m : Struct) : Prop where
  ascending : m.held.Pairwise (· ≤ ·)
  last : ∀ entry ∈ m.fields, entry.2.occupied = true → ∀ number ∈ m.held, entry.1 ≤ number

end Statement

section Told

variable {schema : Schema}

/-- A part as the field it is on the wire. -/
private def Part.item (part : Part) : Item :=
  if nonzero : part.1 ≠ 0 then ⟨⟨part.1, part.2.wireType, nonzero⟩, part.2⟩
  else ⟨⟨1, part.2.wireType, Tag.nonzero_one⟩, part.2⟩

private theorem Part.item_eq {part : Part} (nonzero : part.1 ≠ 0) :
    Part.item part = ⟨⟨part.1, part.2.wireType, nonzero⟩, part.2⟩ := dif_pos nonzero

/-- A part that a decoder can tell from what follows it. -/
structure Part.Plain (part : Part) : Prop where
  carried : Table.Carried part.1
  sized : part.2.payload.length < 2 ^ 63

private theorem items_of_parts {parts : List Part} (plain : ∀ part ∈ parts, Part.Plain part) :
    Items Tag.wireType (parts.map Part.item) (parts.flatMap partBytes) := by
  have written : (parts.map Part.item).flatMap Item.written = parts.flatMap partBytes := by
    rw [List.flatMap_map]
    refine congrArg List.flatten (List.map_congr_left fun part member => ?_)
    rw [Part.item_eq (plain part member).carried.1]
    rfl
  rw [← written]
  refine items_written fun item member => ?_
  obtain ⟨part, inside, rfl⟩ := List.mem_map.mp member
  obtain ⟨⟨nonzero, small⟩, sized⟩ := plain part inside
  rw [Part.item_eq nonzero]
  refine ⟨small, rfl, ?_⟩
  cases held : part.2 with
  | lengthDelimited body =>
    rw [held, UnknownValue.payload] at sized
    exact Nat.lt_trans sized (by decide)
  | _ => trivial

/-- Parts are determined by their bytes. -/
theorem parts_unique {parts parts' : List Part} (plain : ∀ part ∈ parts, Part.Plain part)
    (plain' : ∀ part ∈ parts', Part.Plain part)
    (same : parts.flatMap partBytes = parts'.flatMap partBytes) : parts = parts' := by
  have wire := items_of_parts plain
  rw [same] at wire
  have items := wire.unique (item_delimited _) (items_of_parts plain')
  have back : ∀ parts : List Part, (∀ part ∈ parts, Part.Plain part) →
      (parts.map Part.item).map (fun item => (item.tag.fieldNumber, item.value)) = parts := by
    intro parts plain
    rw [List.map_map]
    refine (List.map_congr_left fun part member => ?_).trans (List.map_id parts)
    rw [Function.comp_apply, Part.item_eq (plain part member).carried.1]
    rfl
  rw [← back parts plain, items, back parts' plain']

theorem payload_le_of_mem {parts : List Part} {part : Part} (member : part ∈ parts) :
    part.2.payload.length ≤ (parts.flatMap partBytes).length := by
  obtain ⟨earlier, later, rfl⟩ := List.append_of_mem member
  have tail : part.2.payload.length ≤ part.2.bytes.length := by
    cases part.2 <;> simp [UnknownValue.payload, UnknownValue.bytes, writeLengthDelimited]
  simp only [List.flatMap_append, List.flatMap_cons, List.length_append, partBytes]
  omega

/-- Two equal concatenations of chunks that are equally many each are equal chunk by chunk. -/
private theorem chunks_eq {α β : Type} {items : List α} {f g : α → List β}
    (count : ∀ x ∈ items, (f x).length = (g x).length) (same : items.flatMap f = items.flatMap g) :
    ∀ x ∈ items, f x = g x := by
  induction items with
  | nil => exact fun _ member => nomatch member
  | cons x rest ih =>
    rw [List.flatMap_cons, List.flatMap_cons] at same
    obtain ⟨head, tail⟩ := List.append_inj same (count x List.mem_cons_self)
    intro y member
    rcases List.mem_cons.mp member with rfl | later
    · exact head
    · exact ih (fun z inside => count z (List.mem_cons_of_mem _ inside)) tail y later

private theorem chunks_length {α β : Type} {items : List α} {f g : α → List β}
    (count : ∀ x ∈ items, (f x).length = (g x).length) :
    (items.flatMap f).length = (items.flatMap g).length := by
  rw [List.length_flatMap, List.length_flatMap, List.map_congr_left count]

theorem SlotReordered.count {mode : SyntaxMode} {f : FieldDescriptorProto} {ty : TyRef}
    {slot slot' : Slot GenValue} (walked : SlotReordered slot slot') :
    (slotParts schema mode f ty slot).length = (slotParts schema mode f ty slot').length := by
  cases walked with
  | implicit inner =>
    simp only [slotParts, inner.guard]
    split <;> rfl
  | absent | present => rfl
  | repeated inner =>
    simp only [slotParts]
    cases genRepeatedEncode ty mode with
    | each => simp [inner.length_eq]
    | packed code => cases inner <;> rfl
    | nothing => rfl
  | map inner => simp [slotParts, inner.length_eq]

theorem FieldsReordered.find {fields fields' : List (UInt32 × Slot GenValue)}
    (walked : FieldsReordered fields fields') (number : UInt32) :
    SortedMap.get? fields number = none ∧ SortedMap.get? fields' number = none ∨
      ∃ slot slot', SortedMap.get? fields number = some slot ∧
        SortedMap.get? fields' number = some slot' ∧ SlotReordered slot slot' := by
  cases found : SortedMap.get? fields' number with
  | some slot' =>
    obtain ⟨slot, source, reordered⟩ := walked.get? found
    exact .inr ⟨slot, slot', source, rfl, reordered⟩
  | none =>
    refine .inl ⟨?_, rfl⟩
    rw [SortedMap.get?_eq_none_iff] at found ⊢
    intro entry member same
    have named : number ∈ fields'.map Prod.fst := by
      rw [walked.names, ← same]
      exact List.mem_map_of_mem member
    obtain ⟨entry', member', same'⟩ := List.mem_map.mp named
    exact found entry' member' same'

theorem FieldsReordered.count {fields fields' : List (UInt32 × Slot GenValue)}
    (walked : FieldsReordered fields fields') (d : MessageDef) (f : FieldDescriptorProto) :
    (fieldParts schema d fields f).length = (fieldParts schema d fields' f).length := by
  unfold fieldParts
  rcases walked.find (num f) with ⟨none, none'⟩ | ⟨slot, slot', found, found', reordered⟩
  · rw [none, none']
  · rw [found, found']
    cases TyRef.fromField f with
    | none => rfl
    | some ty => exact reordered.count

/-- A primitive is read back from its word. -/
theorem interpretPrim_primWord {t : FieldType} {v : Val} (plain : t ≠ .enum)
    (known : scalarRust t = some v.prim) : interpretPrim t (primWord t v) = .ok v := by
  cases t with
  | enum => exact absurd rfl plain
  | string | bytes | message | group => cases known
  | int32 =>
    cases v <;> cases known
    exact congrArg (fun v => Outcome.ok (Val.i32 v)) (wordInt32_int32Word _)
  | bool =>
    cases v <;> cases known
    rename_i value
    cases value <;> rfl
  | int64 | uint32 | uint64 | sint32 | sint64 | fixed32 | sfixed32 | float | fixed64 | sfixed64 | double =>
    cases v <;> cases known
    simp [primWord, interpretPrim, Val.asU64, Val.asU32, isFixed32, isFixed64]

/-- Scalars are told apart by their words. -/
theorem scalar_unique {t : FieldType} {v w : GenValue} (first : ValueOf schema (.scalar t) v)
    (second : ValueOf schema (.scalar t) w)
    (same : wordOf schema (.scalar t) v = wordOf schema (.scalar t) w) : v = w := by
  cases first with
  | prim plain known =>
    cases second with
    | prim _ known' =>
      rw [wordOf_prim, wordOf_prim] at same
      have back := interpretPrim_primWord plain known
      rw [same, interpretPrim_primWord plain known'] at back
      cases back
      rfl
    | string | bytes => cases known
  | string text =>
    cases second with
    | prim _ known => cases known
    | string text' =>
      have bytes : asBytes text = asBytes text' := UnknownValue.lengthDelimited.inj same
      have back := fromUtf8_asBytes text
      rw [bytes, fromUtf8_asBytes] at back
      rw [Option.some.inj back]
  | bytes b =>
    cases second with
    | prim _ known => cases known
    | bytes b' => rw [UnknownValue.lengthDelimited.inj same]

/-- An entry's part tells the words of its key and its value. -/
theorem entryPart_unique {number : UInt32} {k v : TyRef} {entry entry' : GenValue × GenValue}
    (small : (entryPart schema number k v entry).2.payload.length < 2 ^ 63)
    (same : entryPart schema number k v entry = entryPart schema number k v entry') :
    wordOf schema k entry.1 = wordOf schema k entry'.1 ∧
      wordOf schema v entry.2 = wordOf schema v entry'.2 := by
  have bodies := UnknownValue.lengthDelimited.inj (Prod.mk.inj same).2
  have plain {entry : GenValue × GenValue}
      (short : (partBytes (1, wordOf schema k entry.1) ++
        partBytes (2, wordOf schema v entry.2)).length < 2 ^ 63) :
      ∀ part ∈ [(1, wordOf schema k entry.1), (2, wordOf schema v entry.2)], Part.Plain part := by
    intro part member
    have bound := payload_le_of_mem member
    simp only [List.flatMap_cons, List.flatMap_nil, List.append_nil] at bound
    refine ⟨?_, Nat.lt_of_le_of_lt bound short⟩
    simp only [List.mem_cons, List.not_mem_nil, or_false] at member
    rcases member with rfl | rfl <;> exact ⟨by simp, by simp⟩
  have short : (partBytes (1, wordOf schema k entry.1) ++
      partBytes (2, wordOf schema v entry.2)).length < 2 ^ 63 := small
  have short' := short
  rw [bodies] at short'
  have halves := parts_unique (plain short) (plain short') (by simpa using bodies)
  simpa using halves

theorem entryPart_small {number : UInt32} {k v : TyRef} {entry : GenValue × GenValue}
    (small : (entryPart schema number k v entry).2.payload.length < 2 ^ 63) :
    (wordOf schema v entry.2).payload.length < 2 ^ 63 := by
  have member : ((2, wordOf schema v entry.2) : Part) ∈
      [(1, wordOf schema k entry.1), (2, wordOf schema v entry.2)] := by simp
  have bound := payload_le_of_mem member
  refine Nat.lt_of_le_of_lt bound ?_
  simpa [entryPart, UnknownValue.payload] using small

/-- Members that are told apart by their words are equal if the parts of the oneofs are. -/
theorem oneofs_eq_of {oneofs oneofs' : List (Option (UInt32 × GenValue))}
    (walked : OneofsReordered oneofs oneofs') (d : DescriptorProto) (index : Nat)
    (parts : oneofParts schema d index oneofs = oneofParts schema d index oneofs')
    (each : ∀ i number v, oneofs[i]? = some (some (number, v)) → ∀ w, Reordered v w →
      ∃ ty, memberType d (index + i) number = some ty ∧ (
        (number, wordOf schema ty v) ∈ oneofParts schema d index oneofs →
        wordOf schema ty v = wordOf schema ty w → v = w)) : oneofs = oneofs' := by
  induction oneofs generalizing oneofs' index with
  | nil =>
    cases walked
    rfl
  | cons held rest ih =>
    have later {rest'} (tail : OneofsReordered rest rest')
        (same : oneofParts schema d (index + 1) rest = oneofParts schema d (index + 1) rest') :
        rest = rest' := by
      refine ih tail (index + 1) same fun i number v found w reordered => ?_
      obtain ⟨ty, named, told⟩ := each (i + 1) number v found w reordered
      refine ⟨ty, by rwa [Nat.add_right_comm, Nat.add_assoc], fun member => told ?_⟩
      cases held with
      | none => exact member
      | some held =>
        simp only [oneofParts]
        split
        · exact List.mem_cons_of_mem _ member
        · exact member
    cases walked with
    | absent tail => rw [later tail parts]
    | @held number v w _ rest' head tail =>
      obtain ⟨ty, named, told⟩ := each 0 number v rfl w head
      rw [Nat.add_zero] at named
      simp only [oneofParts, named, List.cons.injEq, Prod.mk.injEq, true_and] at parts
      have here := told (by simp [oneofParts, named]) parts.1
      rw [here, later tail parts.2]

/-- A part is at most as long as what it is written in. -/
private theorem small_of_mem {parts : List Part} {part : Part} {rest : List UInt8}
    (small : (parts.flatMap partBytes ++ rest).length < 2 ^ 63) (member : part ∈ parts) :
    part.2.payload.length < 2 ^ 63 := by
  have bound := payload_le_of_mem member
  rw [List.length_append] at small
  omega

theorem StructOf.plain {fqn : String} {m : Struct} {rest : List UInt8} (typed : StructOf schema fqn m)
    (small : ((m.parts schema fqn).flatMap partBytes ++ rest).length < 2 ^ 63) :
    ∀ part ∈ m.parts schema fqn, Part.Plain part := fun part member =>
  ⟨typed.carried part member, small_of_mem small member⟩

/-- Structs that are written alike are equal, if their fields and members are told by their parts. -/
private theorem StructOf.eq_of_told {fqn : String} {fields fields' : List (UInt32 × Slot GenValue)}
    {oneofs oneofs' : List (Option (UInt32 × GenValue))} {unknown : UnknownFieldSet} {bytes : List UInt8}
    (whole : StructOf schema fqn ⟨fields, oneofs, unknown⟩) (walked : FieldsReordered fields fields')
    (walkedOneofs : OneofsReordered oneofs oneofs')
    (encoded : GenMsg.encode ⟨fields, oneofs, unknown⟩ schema fqn = .ok bytes)
    (encoded' : GenMsg.encode ⟨fields', oneofs', unknown⟩ schema fqn = .ok bytes)
    (small : bytes.length < 2 ^ 63)
    (slotTold : ∀ f ∈ structFields (schema.messageOf fqn).descriptor, ∀ ty,
      TyRef.fromField f = some ty → ∀ slot, SortedMap.get? fields (num f) = some slot →
      ∀ slot', SlotReordered slot slot' →
        (∀ part ∈ slotParts schema (schema.messageOf fqn).mode f ty slot,
          part.2.payload.length < 2 ^ 63) →
        slotParts schema (schema.messageOf fqn).mode f ty slot =
          slotParts schema (schema.messageOf fqn).mode f ty slot' → slot = slot')
    (memberTold : ∀ index number v, oneofs[index]? = some (some (number, v)) →
      ∀ ty, memberType (schema.messageOf fqn).descriptor index number = some ty →
      ∀ w, Reordered v w → (wordOf schema ty v).payload.length < 2 ^ 63 →
        wordOf schema ty v = wordOf schema ty w → v = w) :
    fields = fields' ∧ oneofs = oneofs' := by
  have ⟨names, distinct, typed⟩ := whole.shape
  have whole' := StructReordered.typed whole (.mk walked walkedOneofs)
  obtain ⟨rest, unknownEncoded, known⟩ := whole.encoded
  obtain ⟨rest', unknownEncoded', known'⟩ := whole'.encoded
  cases unknownEncoded.symm.trans unknownEncoded'
  cases encoded.symm.trans known
  have bytes := List.append_cancel_right (Outcome.ok.inj (encoded'.symm.trans known'))
  have small' := small
  rw [bytes] at small'
  have same := parts_unique (whole.plain small) (whole'.plain small') bytes
  obtain ⟨plainSame, heldSame⟩ := List.append_inj same (chunks_length fun f _ => walked.count _ f)
  have each := chunks_eq (fun f _ => walked.count _ f) plainSame
  have fieldsSame : fields = fields' := by
    refine walked.eq_of fun number slot slot' member member' reordered => ?_
    have named : number ∈ (structFields (schema.messageOf fqn).descriptor).map num :=
      names ▸ List.mem_map_of_mem member
    obtain ⟨f, among, rfl⟩ := List.mem_map.mp named
    obtain ⟨plain, hasType⟩ := List.mem_filter.mp among
    obtain ⟨ty, isType⟩ := Option.isSome_iff_exists.mp hasType
    have found := SortedMap.get?_of_distinct distinct member
    have found' := SortedMap.get?_of_distinct (walked.names ▸ distinct) member'
    have here := each f plain
    simp only [fieldParts, found, found', isType] at here
    refine slotTold f among ty isType slot found slot' reordered (fun part inside => ?_) here
    refine small_of_mem small (List.mem_append_left _ (List.mem_flatMap.mpr ⟨f, plain, ?_⟩))
    simpa only [fieldParts, found, isType] using inside
  have oneofsSame : oneofs = oneofs' := by
    refine oneofs_eq_of walkedOneofs _ 0 heldSame fun i number v found w reordered => ?_
    rw [Nat.zero_add]
    obtain ⟨ty, named⟩ := Option.isSome_iff_exists.mp (typed i number v found)
    refine ⟨ty, named, fun member words => ?_⟩
    exact memberTold i number v found ty named w reordered
      (small_of_mem small (List.mem_append_right _ member)) words
  exact ⟨fieldsSame, oneofsSame⟩

private theorem repeated_told {mode : SyntaxMode} {f : FieldDescriptorProto} {ty : TyRef}
    {values values' : List GenValue} (of : ∀ v ∈ values, ValueOf schema ty v)
    (inner : ValuesReordered values values')
    (small : ∀ part ∈ slotParts schema mode f ty (.repeated values), part.2.payload.length < 2 ^ 63)
    (same : slotParts schema mode f ty (.repeated values) = slotParts schema mode f ty (.repeated values'))
    (told : ∀ v ∈ values, ∀ w, Reordered v w → (wordOf schema ty v).payload.length < 2 ^ 63 →
      wordOf schema ty v = wordOf schema ty w → v = w) : values = values' := by
  cases ty with
  | message fqn =>
    simp only [slotParts, genRepeatedEncode, List.forall_mem_map] at small same
    refine inner.eq_of (fun v => (num f, wordOf schema (.message fqn) v)) same ?_
    intro v member w reordered parts
    exact told v member w reordered (small v member) (Prod.mk.inj parts).2
  | scalar | enum =>
    refine inner.eq_of (fun _ => ()) (by simp only [List.map_const', inner.length_eq]) ?_
    intro v member w reordered _
    cases of v member <;> cases reordered <;> rfl

mutual

/-- Reordered values that are written alike are iterated alike. -/
theorem ValueOf.told {ty : TyRef} {v w : GenValue} :
    ValueOf schema ty v → Reordered v w → (wordOf schema ty v).payload.length < 2 ^ 63 →
      wordOf schema ty v = wordOf schema ty w → v = w
  | .prim _ _, .prim _, _, _ => rfl
  | .string _, .string _, _, _ => rfl
  | .bytes _, .bytes _, _, _ => rfl
  | .enum _ _, .enum _, _, _ => rfl
  | .message inner, .message deeper, small, same => by
    obtain ⟨_, _, encoded⟩ := inner.encoded
    obtain ⟨_, _, encoded'⟩ := (deeper.typed inner).encoded
    simp only [wordOf, encoded, encoded', UnknownValue.lengthDelimited.injEq] at small same
    rw [← same] at encoded'
    exact congrArg GenValue.message (StructOf.told inner deeper encoded encoded' small)

theorem StructOf.told {fqn : String} {m n : Struct} {bytes : List UInt8} :
    StructOf schema fqn m → StructReordered m n → m.encode schema fqn = .ok bytes →
      n.encode schema fqn = .ok bytes → bytes.length < 2 ^ 63 → m = n
  | @StructOf.mk _ fqn fields oneofs unknown names distinct carried slots typed members numbered,
      @StructReordered.mk _ fields' _ oneofs' _ walked walkedOneofs, encoded, encoded', small => by
    obtain ⟨fieldsSame, oneofsSame⟩ := StructOf.eq_of_told
      (.mk names distinct carried slots typed members numbered) walked walkedOneofs encoded encoded' small
      (fun f among ty isType slot found slot' reordered =>
        SlotOf.told (slots f among ty isType slot found) reordered)
      (fun index number v found ty named w reordered =>
        ValueOf.told (members index number v found ty named) reordered)
    rw [fieldsSame, oneofsSame]

theorem SlotOf.told {mode : SyntaxMode} {f : FieldDescriptorProto} {ty : TyRef}
    {slot slot' : Slot GenValue} :
    SlotOf schema mode f ty slot → SlotReordered slot slot' →
      (∀ part ∈ slotParts schema mode f ty slot, part.2.payload.length < 2 ^ 63) →
      slotParts schema mode f ty slot = slotParts schema mode f ty slot' → slot = slot'
  | .implicit of, .implicit inner, small, same => by
    refine congrArg Slot.implicit (inner.eq_of_guard fun guarded => ?_)
    have guarded' := inner.guard.symm.trans guarded
    simp only [slotParts, guarded, guarded', if_true, List.mem_singleton, forall_eq, List.cons.injEq,
      Prod.mk.injEq, true_and, and_true] at small same
    exact ValueOf.told of inner small same
  | .absent _ _ _, .absent, _, _ => rfl
  | .present of, .present inner, small, same => by
    simp only [slotParts, List.mem_singleton, forall_eq, List.cons.injEq, Prod.mk.injEq, true_and,
      and_true] at small same
    exact congrArg (fun v => Slot.explicit (some v)) (ValueOf.told of inner small same)
  | .repeated of, .repeated inner, small, same =>
    congrArg Slot.repeated (repeated_told of inner small same fun v member _ reordered =>
      ValueOf.told (of v member) reordered)
  | @SlotOf.map _ _ _ _ v t entries kv keys values distinct, .map inner, small, same => by
    refine congrArg Slot.map ?_
    have parts (entries : List (GenValue × GenValue)) : slotParts schema mode f ty (.map entries) =
        entries.map (entryPart schema (num f) (.scalar t) v) := by
      rw [slotParts, kv]
    rw [parts, List.forall_mem_map] at small
    rw [parts, parts] at same
    refine inner.eq_of distinct same fun entry member entry' member' parts => ?_
    obtain ⟨key, value⟩ := entryPart_unique (small entry member) parts
    obtain ⟨v', source, _⟩ := inner.source (w := entry'.2) member'
    refine ⟨scalar_unique (keys entry member) (keys (entry'.1, v') source) key, fun reordered => ?_⟩
    exact ValueOf.told (values entry member) reordered (entryPart_small (small entry member)) value

end

end Told

section Order

variable {schema : Schema} {fqn : String}

theorem insertByNumber_sorted {f : FieldDescriptorProto} {fields : List FieldDescriptorProto}
    (sorted : fields.Pairwise fun a b => a.number.getD 0 ≤ b.number.getD 0) :
    (insertByNumber f fields).Pairwise fun a b => a.number.getD 0 ≤ b.number.getD 0 := by
  induction fields with
  | nil => exact List.pairwise_singleton _ _
  | cons g rest ih =>
    rw [insertByNumber]
    split
    · rename_i below
      refine .cons (fun h member => ?_) sorted
      rcases List.mem_cons.mp member with rfl | later
      · exact below
      · exact Int32.le_trans below (List.rel_of_pairwise_cons sorted later)
    · rename_i above
      refine .cons (fun h member => ?_) (ih sorted.tail)
      rcases List.mem_cons.mp ((insertByNumber_perm f rest).mem_iff.mp member) with rfl | later
      · exact Int32.le_of_lt (Int32.not_le.mp above)
      · exact List.rel_of_pairwise_cons sorted later

theorem sortByNumber_sorted (fields : List FieldDescriptorProto) :
    (sortByNumber fields).Pairwise fun a b => a.number.getD 0 ≤ b.number.getD 0 := by
  induction fields with
  | nil => exact .nil
  | cons f rest ih => exact insertByNumber_sorted ih

private theorem toInt_number {n : Int32} (small : n.toUInt32.toNat < 2 ^ 29) :
    n.toInt = n.toUInt32.toNat := by
  have narrow : n.toBitVec.toNat < 2 ^ 29 := small
  have same := BitVec.toInt_eq_toNat_cond n.toBitVec
  rw [if_pos (by omega)] at same
  exact same

/-- Numbers that tags can carry are ordered alike as signed and as unsigned numbers. -/
theorem num_le {f g : FieldDescriptorProto} (carriedF : Table.Carried (num f))
    (carriedG : Table.Carried (num g)) (below : f.number.getD 0 ≤ g.number.getD 0) : num f ≤ num g := by
  have signed := Int32.le_iff_toInt_le.mp below
  rw [toInt_number carriedF.2, toInt_number carriedG.2] at signed
  exact UInt32.le_iff_toNat_le.mpr (by exact_mod_cast signed)

theorem genRepeatedEncode_something {ty : TyRef} {mode : SyntaxMode} {value : GenValue}
    (of : ValueOf schema ty value) : genRepeatedEncode ty mode ≠ .nothing := by
  cases of with
  | string | bytes | message => simp [genRepeatedEncode]
  | enum => cases mode <;> simp [genRepeatedEncode, genPackedEncode]
  | @prim t v plain known =>
    cases t <;> first
      | cases known
      | (cases mode <;> simp [genRepeatedEncode, genPackedEncode, isFixed32, isFixed64, isVarint])

/-- A slot has parts exactly if it is occupied. -/
theorem slotParts_isEmpty {mode : SyntaxMode} {f : FieldDescriptorProto} {ty : TyRef}
    {slot : Slot GenValue} (of : SlotOf schema mode f ty slot) :
    (slotParts schema mode f ty slot).isEmpty = !slot.occupied := by
  cases of with
  | implicit =>
    simp only [slotParts, Slot.occupied]
    split <;> simp [*]
  | absent | present => rfl
  | @repeated _ _ _ values of =>
    cases values with
    | nil =>
      simp only [slotParts]
      cases genRepeatedEncode ty mode <;> rfl
    | cons v rest =>
      have something : genRepeatedEncode ty mode ≠ .nothing :=
        genRepeatedEncode_something (of v List.mem_cons_self)
      simp only [slotParts]
      cases written : genRepeatedEncode ty mode with
      | each | packed => rfl
      | nothing => exact absurd written something
  | map => simp [slotParts, Slot.occupied]

theorem oneofParts_numbers {d : DescriptorProto} {oneofs : List (Option (UInt32 × GenValue))}
    {index : Nat} (typed : ∀ i number value, oneofs[i]? = some (some (number, value)) →
      (memberType d (index + i) number).isSome) :
    (oneofParts schema d index oneofs).map Prod.fst =
      oneofs.filterMap fun held => held.map Prod.fst := by
  induction oneofs generalizing index with
  | nil => rfl
  | cons held rest ih =>
    have later := @ih (index + 1) fun i number value found => by
      have here := typed (i + 1) number value found
      rwa [← Nat.add_assoc, Nat.add_right_comm] at here
    cases held with
    | none => exact later
    | some held =>
      obtain ⟨ty, named⟩ := Option.isSome_iff_exists.mp (typed 0 held.1 held.2 rfl)
      rw [Nat.add_zero] at named
      simp only [oneofParts, named, List.map_cons, later, List.filterMap_cons, Option.map_some]

/-- The parts of a struct come in ascending order exactly if its members come last. -/
theorem parts_ascending_iff {m : Struct} (typed : StructOf schema fqn m) :
    ((m.parts schema fqn).map Prod.fst).Pairwise (· ≤ ·) ↔ MembersLast m := by
  have ⟨names, distinct, members⟩ := typed.shape
  have held : (oneofParts schema (schema.messageOf fqn).descriptor 0 m.oneofs).map Prod.fst = m.held :=
    oneofParts_numbers fun i number value found => by
      rw [Nat.zero_add]
      exact members i number value found
  have plain : (((plainFields (schema.messageOf fqn).descriptor).flatMap
      (fieldParts schema (schema.messageOf fqn) m.fields)).map Prod.fst).Pairwise (· ≤ ·) := by
    have sorted : (plainFields (schema.messageOf fqn).descriptor).Pairwise fun a b =>
        a.number.getD 0 ≤ b.number.getD 0 := (sortByNumber_sorted _).filter _
    rw [List.map_flatMap, List.pairwise_flatMap]
    refine ⟨fun f _ => ?_, sorted.imp_of_mem fun {f g} memberF memberG below => ?_⟩
    · have alike : (fieldParts schema (schema.messageOf fqn) m.fields f).map Prod.fst =
          List.replicate (fieldParts schema (schema.messageOf fqn) m.fields f).length (num f) := by
        refine List.eq_replicate_iff.mpr ⟨List.length_map _, fun number member => ?_⟩
        obtain ⟨part, inside, rfl⟩ := List.mem_map.mp member
        exact fieldParts_number inside
      rw [alike]
      exact List.pairwise_replicate.mpr (.inr (UInt32.le_refl _))
    · have numbers := num_le (typed.numbers f (mem_of_plainFields memberF))
        (typed.numbers g (mem_of_plainFields memberG)) below
      intro x memberX y memberY
      obtain ⟨part, inside, rfl⟩ := List.mem_map.mp memberX
      obtain ⟨part', inside', rfl⟩ := List.mem_map.mp memberY
      rw [fieldParts_number inside, fieldParts_number inside']
      exact numbers
  have written : ∀ number, number ∈ ((plainFields (schema.messageOf fqn).descriptor).flatMap
        (fieldParts schema (schema.messageOf fqn) m.fields)).map Prod.fst ↔
      ∃ slot, (number, slot) ∈ m.fields ∧ slot.occupied = true := by
    intro number
    constructor
    · intro member
      obtain ⟨part, inside, rfl⟩ := List.mem_map.mp member
      obtain ⟨f, plainF, partOf⟩ := List.mem_flatMap.mp inside
      have same := fieldParts_number partOf
      unfold fieldParts at partOf
      split at partOf
      · rename_i slot ty found isType
        refine ⟨slot, same ▸ SortedMap.mem_of_get? found, ?_⟩
        have empty := slotParts_isEmpty (typed.slot plainF isType found)
        cases occupied : slot.occupied with
        | true => rfl
        | false =>
          rw [occupied] at empty
          rw [List.isEmpty_iff.mp empty] at partOf
          cases partOf
      · cases partOf
    · rintro ⟨slot, member, occupied⟩
      have named : number ∈ (structFields (schema.messageOf fqn).descriptor).map num :=
        names ▸ List.mem_map_of_mem member
      obtain ⟨f, among, rfl⟩ := List.mem_map.mp named
      obtain ⟨plainF, hasType⟩ := List.mem_filter.mp among
      obtain ⟨ty, isType⟩ := Option.isSome_iff_exists.mp hasType
      have found := SortedMap.get?_of_distinct distinct member
      have empty := slotParts_isEmpty (typed.slot plainF isType found)
      rw [occupied] at empty
      cases parts : slotParts schema (schema.messageOf fqn).mode f ty slot with
      | nil =>
        rw [parts] at empty
        cases empty
      | cons part rest =>
        have inside : part ∈ fieldParts schema (schema.messageOf fqn) m.fields f := by
          simp only [fieldParts, found, isType, parts, List.mem_cons_self]
        refine List.mem_map.mpr ⟨part, List.mem_flatMap.mpr ⟨f, plainF, inside⟩, ?_⟩
        exact fieldParts_number inside
  rw [GenMsg.parts, List.map_append, held, List.pairwise_append]
  constructor
  · rintro ⟨_, ascending, last⟩
    exact ⟨ascending, fun entry member occupied number inside =>
      last entry.1 ((written entry.1).mpr ⟨entry.2, member, occupied⟩) number inside⟩
  · rintro ⟨ascending, last⟩
    refine ⟨plain, ascending, fun number member other inside => ?_⟩
    obtain ⟨slot, among, occupied⟩ := (written number).mp member
    exact last (number, slot) among occupied other inside

/-- Written parts are in ascending order exactly if their numbers are. -/
theorem ascending_iff {parts : List Part} (plain : ∀ part ∈ parts, Part.Plain part) :
    Ascending (parts.flatMap partBytes) ↔ (parts.map Prod.fst).Pairwise (· ≤ ·) := by
  have wire := items_of_parts plain
  have numbers : (parts.map Part.item).map (fun item => item.tag.fieldNumber) = parts.map Prod.fst := by
    rw [List.map_map]
    refine List.map_congr_left fun part member => ?_
    rw [Function.comp_apply, Part.item_eq (plain part member).carried.1]
  rw [← numbers, List.pairwise_map]
  constructor
  · rintro ⟨items, wire', ascending⟩
    obtain rfl := wire.unique (item_delimited _) wire'
    exact ascending
  · exact fun ascending => ⟨_, wire, ascending⟩

/-- Two values of a struct that are equal but for the iteration of their maps are encoded to the
same bytes with the known fields in ascending order exactly if they are iterated alike and the
oneof members they hold come last. A vector never has more than `isize::MAX` bytes. -/
theorem encode_deterministic_iff {v w : Struct} (typed : StructOf schema fqn v)
    (equal : StructReordered v w)
    (fits : ∀ bytes, v.encode schema fqn = .ok bytes → bytes.length < 2 ^ 63) :
    Deterministic schema fqn v w ↔ v = w ∧ MembersLast v := by
  obtain ⟨unknown, unknownEncoded, encoded⟩ := typed.encoded
  have small := fits _ encoded
  have plain := typed.plain small
  rw [← parts_ascending_iff typed, ← ascending_iff plain]
  constructor
  · rintro ⟨known, rest, unknownEncoded', encodedV, encodedW, ascending⟩
    have same := encodedV.symm.trans encoded
    cases unknownEncoded.symm.trans unknownEncoded'
    rw [← List.append_cancel_right (Outcome.ok.inj same)]
    exact ⟨typed.told equal encodedV encodedW (fits _ encodedV), ascending⟩
  · rintro ⟨rfl, ascending⟩
    exact ⟨_, unknown, unknownEncoded, encoded, encoded, ascending⟩

private def tallies : FieldDescriptorProto :=
  { name := some "tallies", number := some 1, label := some .repeated, type := some .message
    typeName := some ".Poll.TalliesEntry" }

private def winner : FieldDescriptorProto :=
  { name := some "winner", number := some 2, label := some .optional, type := some .int32
    oneofIndex := some 0 }

/-- A message `Poll` with a map from numbers to numbers and a oneof. -/
private def polls : Schema where
  messages := [(".Poll",
    ⟨{ name := some "Poll", field := [winner, tallies], oneofDecl := [{ name := some "outcome" }] }, .proto3⟩)]
  enums := []
  mapEntries := [(".Poll.TalliesEntry", (.scalar .int32, .scalar .int32))]

private def tally (candidate votes : Int32) : GenValue × GenValue := (.prim (.i32 candidate), .prim (.i32 votes))

private def poll (entries : List (GenValue × GenValue)) (outcome : Option (UInt32 × GenValue)) : Struct :=
  ⟨[(1, .map entries)], [outcome], .empty⟩

private theorem poll_of {entries : List (Int32 × Int32)} {outcome : Option Int32}
    (distinct : (entries.map Prod.fst).Nodup) :
    StructOf polls ".Poll" (poll (entries.map fun entry => tally entry.1 entry.2)
      (outcome.map fun winner => (2, .prim (.i32 winner)))) := by
  have found : (polls.messageOf ".Poll").descriptor.field = [winner, tallies] := rfl
  have plain : structFields (polls.messageOf ".Poll").descriptor = [tallies] := by decide
  have single : ((poll (entries.map fun entry => tally entry.1 entry.2)
      (outcome.map fun winner => (2, .prim (.i32 winner)))).fields.map Prod.fst).Nodup :=
    List.nodup_cons.mpr ⟨List.not_mem_nil, List.nodup_nil⟩
  have only {index : Nat} {number : UInt32} {value : GenValue}
      (held : [outcome.map fun winner => ((2 : UInt32), GenValue.prim (.i32 winner))][index]? =
        some (some (number, value))) :
      index = 0 ∧ number = 2 ∧ ∃ winner, value = .prim (.i32 winner) := by
    cases index with
    | succ => cases held
    | zero =>
      cases outcome with
      | none => cases held
      | some winner =>
        cases held
        exact ⟨rfl, rfl, winner, rfl⟩
  refine .mk (by rw [plain]; rfl) single (by rw [found]; decide) ?_ ?_ ?_ nofun
  · rw [plain]
    intro f member ty isType slot here
    rw [List.mem_singleton.mp member] at isType here ⊢
    cases isType
    cases here
    refine @SlotOf.map _ _ _ _ (.scalar .int32) .int32 _ rfl ?_ ?_ ?_
    · intro entry inside
      obtain ⟨_, _, rfl⟩ := List.mem_map.mp inside
      exact .prim (by decide) rfl
    · intro entry inside
      obtain ⟨_, _, rfl⟩ := List.mem_map.mp inside
      exact .prim (by decide) rfl
    · rw [List.map_map]
      exact List.pairwise_map.mpr ((List.pairwise_map.mp distinct).imp fun differs same =>
        differs (Val.i32.inj (GenValue.prim.inj same)))
  · intro index number value held
    obtain ⟨rfl, rfl, _⟩ := only held
    rfl
  · intro index number value held ty isType
    obtain ⟨rfl, rfl, _, rfl⟩ := only held
    cases isType
    exact .prim (by decide) rfl

theorem encode_deterministic_single : Deterministic polls ".Poll"
    (poll [tally 7 5] (some (2, .prim (.i32 7)))) (poll [tally 7 5] (some (2, .prim (.i32 7)))) := by
  have typed := @poll_of [(7, 5)] (some 7) (by decide)
  have same : StructReordered (poll [tally 7 5] (some (2, .prim (.i32 7))))
      (poll [tally 7 5] (some (2, .prim (.i32 7)))) :=
    .mk (.cons (.map (@EntriesReordered.next _ _ _ [] [] _ (.prim _) .nil)) .nil) (.held (.prim _) .nil)
  refine (encode_deterministic_iff typed same fun bytes encoded => ?_).mpr ⟨rfl, ?_, ?_⟩
  · have concrete : (poll [tally 7 5] (some (2, .prim (.i32 7)))).encode polls ".Poll" =
        .ok [0x0a, 4, 8, 7, 16, 5, 16, 7] := by rfl
    cases encoded.symm.trans concrete
    decide
  · exact List.pairwise_singleton _ _
  · simp [poll, GenMsg.held]

/-- The same two tallies, in two orders, are written as different bytes. -/
theorem not_encode_deterministic :
    StructOf polls ".Poll" (poll [tally 1 1, tally 2 2] none) ∧
      StructReordered (poll [tally 1 1, tally 2 2] none) (poll [tally 2 2, tally 1 1] none) ∧
      ¬ Deterministic polls ".Poll" (poll [tally 1 1, tally 2 2] none)
        (poll [tally 2 2, tally 1 1] none) := by
  refine ⟨@poll_of [(1, 1), (2, 2)] none (by decide), ?_, ?_⟩
  · exact .mk (.cons (.map (@EntriesReordered.next _ _ _ [tally 1 1] [] _ (.prim _)
      (@EntriesReordered.next _ _ _ [] [] _ (.prim _) .nil))) .nil) (.absent .nil)
  · rintro ⟨known, unknown, _, encodedV, encodedW, _⟩
    have first : (poll [tally 1 1, tally 2 2] none).encode polls ".Poll" =
        .ok [0x0a, 4, 8, 1, 16, 1, 0x0a, 4, 8, 2, 16, 2] := by rfl
    have second : (poll [tally 2 2, tally 1 1] none).encode polls ".Poll" =
        .ok [0x0a, 4, 8, 2, 16, 2, 0x0a, 4, 8, 1, 16, 1] := by rfl
    have same := (first.symm.trans encodedV).trans (encodedW.symm.trans second)
    cases same

end Order

end TptProto.Codegen
