import TptProto.Core.Occurrence
import TptProto.Reflect.Nesting

/-! Repeated fields of packable types under the dynamic decoder: which of them are read
from single elements and packed chunks alike. -/

namespace TptProto.Reflect

open TptProto.Foundation TptProto.Core TptProto.Descriptor

/-- What a single element is decoded to. -/
def scalarWord (t : FieldType) (word : UnknownValue) : Value :=
  match interpretScalar .default t word with
  | .ok value => value
  | _ => .list []

section Words

variable {t : FieldType} {word : UnknownValue}

theorem interpretScalar_word (packs : packedAllowed t = true) (kind : word.wireType = fieldWireType t)
    (limits : DecoderLimits) : interpretScalar limits t word = .ok (scalarWord t word) := by
  cases t <;> simp only [packedAllowed, Bool.false_eq_true] at packs <;>
    cases word <;> simp only [UnknownValue.wireType, fieldWireType, reduceCtorEq] at kind <;> rfl

theorem fieldWireType_packed (packs : packedAllowed t = true) : fieldWireType t ≠ .lengthDelimited := by
  cases t <;> simp [packedAllowed, fieldWireType] at packs ⊢

theorem scalarWord_plain (packs : packedAllowed t = true) (kind : word.wireType = fieldWireType t)
    (items : List Value) : scalarWord t word ≠ .list items := by
  cases t <;> simp only [packedAllowed, Bool.false_eq_true] at packs <;>
    cases word <;> simp only [UnknownValue.wireType, fieldWireType, reduceCtorEq] at kind <;>
    simp [scalarWord, interpretScalar]

theorem exists_word (packs : packedAllowed t = true) :
    ∃ word : UnknownValue, word.wireType = fieldWireType t ∧ word.Sized ∧ word.bytes.length < 2 ^ 62 := by
  cases t <;> simp only [packedAllowed, Bool.false_eq_true] at packs <;>
    first
    | exact ⟨.varint 0, rfl, trivial, by decide⟩
    | exact ⟨.fixed32 0, rfl, trivial, by decide⟩
    | exact ⟨.fixed64 0, rfl, trivial, by decide⟩

end Words

/-- A message with the same contents as another, but for one field. -/
structure Beside (number : Int32) (msg alone : DynamicMessage) : Prop where
  sorted : SortedMap.Sorted msg.fields
  sortedAlone : SortedMap.Sorted alone.fields
  pool : msg.pool = alone.pool
  extensions : msg.extensions = alone.extensions
  unknown : msg.unknown = alone.unknown
  fields : ∀ other, other ≠ number → msg.getField other = alone.getField other

namespace Beside

variable {number other : Int32} {msg alone later : DynamicMessage} {field : FieldDescriptorProto}
  {val : Value}

/-- The same update of another field on both sides. -/
private theorem upsert (beside : Beside number msg alone) (differs : other ≠ number)
    {f : Option Value → Value} :
    Beside number { msg with fields := SortedMap.upsert msg.fields other f }
        { alone with fields := SortedMap.upsert alone.fields other f } ∧
      DynMsg.getField { msg with fields := SortedMap.upsert msg.fields other f } number =
        msg.getField number := by
  refine ⟨⟨beside.sorted.upsert _ _, beside.sortedAlone.upsert _ _, beside.pool, beside.extensions,
    beside.unknown, fun key elsewhere => ?_⟩, ?_⟩
  · have same := beside.fields key elsewhere
    have here := beside.fields other differs
    simp only [DynMsg.getField] at same here ⊢
    rw [SortedMap.get?_upsert beside.sorted, SortedMap.get?_upsert beside.sortedAlone, same, here]
  · simp only [DynMsg.getField]
    rw [SortedMap.get?_upsert beside.sorted, if_neg differs.symm]

/-- Another field is stored as if the one left out were not there. -/
theorem insertField (beside : Beside number msg alone) (differs : field.number.getD 0 ≠ number)
    (inserted : Reflect.insertField alone field val = .ok later) :
    ∃ next, Reflect.insertField msg field val = .ok next ∧ Beside number next later ∧
      next.getField number = msg.getField number := by
  have held := beside.fields _ differs
  have kind : isMapField msg.pool field = isMapField alone.pool field := by rw [beside.pool]
  unfold Reflect.insertField at inserted ⊢
  simp only [kind, held] at inserted ⊢
  by_cases repeated : field.label = some .repeated
  · simp only [if_pos repeated] at inserted ⊢
    by_cases isMap : isMapField alone.pool field = true
    · simp only [if_pos isMap] at inserted ⊢
      cases stored : (alone.getField (field.number.getD 0)).getD (.map []) with
      | map entries =>
        rw [stored] at inserted
        cases inserted
        exact ⟨_, rfl, beside.upsert differs⟩
      | scalar | enum | message | list =>
        rw [stored] at inserted
        cases inserted
    · simp only [if_neg isMap] at inserted ⊢
      cases inserted
      exact ⟨_, rfl, beside.upsert differs⟩
  · simp only [if_neg repeated] at inserted ⊢
    cases inserted
    exact ⟨_, rfl, beside.upsert differs⟩

/-- An item of another field acts as if the one left out were not there. -/
theorem applyItem {recurse : Recurse} {pool : DescriptorPool} {descriptor : DescriptorProto}
    {limits : DecoderLimits} {depth : UInt32} {item : Item} (beside : Beside number msg alone)
    (differs : item.tag.fieldNumber.toInt32 ≠ number)
    (applied : Reflect.applyItem recurse pool descriptor limits depth alone item = .ok later) :
    ∃ next, Reflect.applyItem recurse pool descriptor limits depth msg item = .ok next ∧
      Beside number next later ∧ next.getField number = msg.getField number := by
  unfold Reflect.applyItem at applied ⊢
  cases found : descriptor.findFieldByNumber item.tag.fieldNumber.toInt32 with
  | some field =>
    simp only [found, Outcome.bind_eq_ok] at applied
    obtain ⟨val, interpreted, inserted⟩ := applied
    have numbered : field.number = some item.tag.fieldNumber.toInt32 := by
      simpa using List.find?_some found
    obtain ⟨next, here, rest⟩ := beside.insertField (by rwa [numbered]) inserted
    exact ⟨next, by simp only [found, interpreted, Outcome.ok_bind, here], rest⟩
  | none =>
    simp only [found] at applied ⊢
    cases ext : extensionFor pool descriptor item.tag.fieldNumber.toInt32 with
    | some extension =>
      simp only [ext, Outcome.bind_eq_ok, Outcome.ok.injEq] at applied
      obtain ⟨val, interpreted, rfl⟩ := applied
      refine ⟨{ msg with
          extensions := SortedMap.insert msg.extensions
            (extension.number.getD item.tag.fieldNumber.toInt32) val }, ?_, ⟨beside.sorted, beside.sortedAlone, beside.pool, ?_, beside.unknown, beside.fields⟩, rfl⟩
      · simp only [interpreted, Outcome.ok_bind]
      · simp only [beside.extensions]
    | none =>
      simp only [ext, Outcome.bind_eq_ok, Outcome.ok.injEq] at applied
      obtain ⟨unknown, kept, rfl⟩ := applied
      refine ⟨{ msg with unknown }, ?_, ⟨beside.sorted, beside.sortedAlone, beside.pool,
        beside.extensions, rfl, beside.fields⟩, rfl⟩
      simp only [beside.unknown, kept, Outcome.ok_bind]

end Beside

/-- A repeated field of a packable type, by the number it is decoded under. -/
structure PackedField (pool : DescriptorPool) (descriptor : DescriptorProto) (number : UInt32)
    (field : FieldDescriptorProto) : Prop where
  found : declared pool descriptor number.toInt32 = some field
  label : field.label = some .repeated
  packs : packedAllowed (field.type.getD .string) = true

/-- The field is one of the message's own, not an extension. -/
def Own (descriptor : DescriptorProto) (number : UInt32) : Prop :=
  (descriptor.findFieldByNumber number.toInt32).isSome = true

instance (descriptor : DescriptorProto) (number : UInt32) : Decidable (Own descriptor number) :=
  inferInstanceAs (Decidable (_ = _))

/-- The list a message holds of the field. -/
def heldList (descriptor : DescriptorProto) (number : UInt32) (field : FieldDescriptorProto)
    (msg : DynamicMessage) : Value :=
  (if Own descriptor number then msg.getField number.toInt32
    else SortedMap.get? msg.extensions (field.number.getD number.toInt32)).getD (.list [])

/-- Where the other fields of an input can be decoded, so can all of it, with the elements
of the field in wire order. -/
def ReadsPacked (pool : DescriptorPool) (descriptor : DescriptorProto) (number : UInt32)
    (field : FieldDescriptorProto) (r : Reader)
    (pieces : List (Piece (fieldWireType (field.type.getD .string)))) : Prop :=
  ∀ apart base, Apart r apart (wireOf pool descriptor) pieces →
    DynMsg.decode pool descriptor apart = .ok base →
    ∃ msg, DynMsg.decode pool descriptor r = .ok msg ∧
      heldList descriptor number field msg =
        .list ((elementsOf pieces).map (scalarWord (field.type.getD .string)))

/-- Every input made of occurrences of a kind is read right, whatever other fields it has. -/
def ReadsEvery (pool : DescriptorPool) (descriptor : DescriptorProto) {number : UInt32}
    (nonzero : number ≠ 0) (field : FieldDescriptorProto)
    (among : Occurrence (fieldWireType (field.type.getD .string)) → Prop) : Prop :=
  ∀ r pieces, PackedInput r number nonzero (wireOf pool descriptor) pieces →
    (∀ occurrence ∈ pieces.filterMap Piece.own?, among occurrence) →
    ReadsPacked pool descriptor number field r pieces

section Fields

variable {pool : DescriptorPool} {descriptor : DescriptorProto} {number : UInt32}
  {nonzero : number ≠ 0} {field : FieldDescriptorProto} {r : Reader}
  {pieces : List (Piece (fieldWireType (field.type.getD .string)))}

theorem PackedField.own (packed : PackedField pool descriptor number field)
    (own : Own descriptor number) : descriptor.findFieldByNumber number.toInt32 = some field := by
  obtain ⟨found, here⟩ := Option.isSome_iff_exists.mp own
  have same := packed.found
  rw [declared, here, Option.some_or] at same
  rw [here, same]

theorem PackedField.plain (packed : PackedField pool descriptor number field) :
    ¬ (field.type.getD .string = .message ∨ field.type.getD .string = .group) := by
  rintro (same | same) <;> have packs := packed.packs <;> rw [same] at packs <;> cases packs

theorem PackedField.notMap (packed : PackedField pool descriptor number field)
    (pool' : DescriptorPool) : isMapField pool' field = false := by
  have plain := packed.plain
  cases type : field.type with
  | none => simp [isMapField, type]
  | some t =>
    have other : t ≠ .message := by
      rintro rfl
      exact plain (.inl (by rw [type]; rfl))
    simp [isMapField, type, other]

/-- A chunk of the field is read as one. -/
private theorem packs_chunk (packed : PackedField pool descriptor number field)
    (notEnum : field.type.getD .string ≠ .enum) : Packs field .lengthDelimited :=
  ⟨rfl, packed.packs, notEnum, packed.label⟩

private theorem not_packs_single (packed : PackedField pool descriptor number field) :
    ¬ Packs field (fieldWireType (field.type.getD .string)) := fun packs =>
  fieldWireType_packed packed.packs packs.1

/-- What one occurrence is decoded to: a list for a chunk, an element for a single one. -/
private theorem interpret_occurrence (packed : PackedField pool descriptor number field)
    (recurse : Recurse) {limits : DecoderLimits} {depth : UInt32}
    (occurrence : Occurrence (fieldWireType (field.type.getD .string)))
    (accepted : field.type.getD .string ≠ .enum ∨ ¬ occurrence.Chunked)
    (short : occurrence.value.payload.length < 2 ^ 63)
    (budget : DecoderLimits.within limits.maxBytes occurrence.value.payload.length = true)
    (shallow : depth + 1 ≤ limits.maxDepth) :
    ∃ val, interpret recurse pool limits depth field occurrence.value.wireType occurrence.value =
        .ok val ∧
      ∀ held, appendValue (some (.list held)) val =
        .list (held ++ occurrence.words.map (scalarWord (field.type.getD .string))) := by
  have plain := packed.plain
  cases occurrence with
  | single word fits =>
    refine ⟨scalarWord (field.type.getD .string) word, ?_, fun held => ?_⟩
    · simp only [interpret, if_neg plain, Occurrence.value, fits, if_neg (not_packs_single packed)]
      exact interpretScalar_word packed.packs fits limits
    · have single := scalarWord_plain packed.packs fits
      simp only [appendValue, Option.getD_some, Occurrence.words, List.map_cons, List.map_nil]
  | chunk words body wire =>
    have notEnum : field.type.getD .string ≠ .enum := by
      rcases accepted with notEnum | single
      · exact notEnum
      · exact absurd trivial single
    have kinds := (Occurrence.chunk words body wire).words_kind
    have opened : Reader.nestedAt limits depth (.ofBytes body) =
        .ok (Reader.childAt limits depth (.ofBytes body)) :=
      Reader.nestedAt_eq_ok_iff.mpr ⟨shallow, rfl⟩
    have element : decodeScalar (field.type.getD .string) =
        readElement .wire (fieldWireType (field.type.getD .string))
          (fun limits => interpretScalar limits (field.type.getD .string)) := by
      funext reader
      exact decodeScalar_eq _ (not_or.mp plain) reader
    have read : Reader.readAll (decodeScalar (field.type.getD .string))
        (Reader.childAt limits depth (.ofBytes body)) =
          .ok (words.map (scalarWord (field.type.getD .string))) := by
      rw [element]
      exact readAll_elements wire (fieldWireType_packed packed.packs) short budget
        fun word member => interpretScalar_word packed.packs (kinds word member) limits
    refine ⟨.list (words.map (scalarWord (field.type.getD .string))), ?_, fun held => rfl⟩
    simp only [interpret, if_neg plain, Occurrence.value, UnknownValue.wireType,
      if_pos (packs_chunk packed notEnum), UnknownValue.payload, opened, Outcome.mapErr_ok,
      Outcome.ok_bind, read]

/-- The message's list of the field, under whatever else it holds. -/
private def Holds (number : UInt32) (msg : DynamicMessage) (held : List Value) : Prop :=
  (msg.getField number.toInt32).getD (.list []) = .list held

private theorem appendValue_held {stored : Option Value} {val : Value} {held : List Value}
    (holds : stored.getD (.list []) = .list held) :
    appendValue stored val = appendValue (some (.list held)) val := by
  simp only [appendValue, holds, Option.getD_some]

/-- An occurrence adds its elements to the list and changes nothing else. -/
private theorem applyItem_occurrence (packed : PackedField pool descriptor number field)
    (own : Own descriptor number) (recurse : Recurse) {limits : DecoderLimits} {depth : UInt32}
    (occurrence : Occurrence (fieldWireType (field.type.getD .string)))
    (accepted : field.type.getD .string ≠ .enum ∨ ¬ occurrence.Chunked)
    (short : occurrence.value.payload.length < 2 ^ 63)
    (budget : DecoderLimits.within limits.maxBytes occurrence.value.payload.length = true)
    (shallow : depth + 1 ≤ limits.maxDepth) {msg alone : DynamicMessage} {held : List Value}
    (beside : Beside number.toInt32 msg alone) (holds : Holds number msg held) :
    ∃ next, applyItem recurse pool descriptor limits depth msg
        ((Piece.own occurrence).item number nonzero) = .ok next ∧
      Beside number.toInt32 next alone ∧
      Holds number next (held ++ occurrence.words.map (scalarWord (field.type.getD .string))) := by
  obtain ⟨val, interpreted, appended⟩ :=
    interpret_occurrence packed recurse occurrence accepted short budget shallow
  have found := packed.own own
  have numbered : field.number = some number.toInt32 := by simpa using List.find?_some found
  refine ⟨{ msg with
    fields := SortedMap.upsert msg.fields number.toInt32 fun stored => appendValue stored val }, ?_,
    ⟨beside.sorted.upsert _ _, beside.sortedAlone, beside.pool, beside.extensions, beside.unknown,
      fun other differs => ?_⟩, ?_⟩
  · simp only [applyItem, Piece.item, found, interpreted, Outcome.ok_bind, insertField, numbered,
      Option.getD_some, packed.label, if_true, packed.notMap, Bool.false_eq_true, if_false]
  · have same := beside.fields other differs
    simp only [DynMsg.getField] at same ⊢
    rw [SortedMap.get?_upsert beside.sorted, if_neg differs, same]
  · simp only [Holds, DynMsg.getField] at holds ⊢
    rw [SortedMap.get?_upsert beside.sorted, if_pos rfl, Option.getD_some, appendValue_held holds,
      appended]

private theorem wire_items (packed : PackedField pool descriptor number field)
    (accepted : ∀ occurrence ∈ pieces.filterMap Piece.own?,
      field.type.getD .string ≠ .enum ∨ ¬ occurrence.Chunked)
    (input : PackedInput r number nonzero (wireOf pool descriptor) pieces) :
    Items (wireOf pool descriptor) (pieces.map (Piece.item number nonzero)) r.rest := by
  refine input.wire.rewire fun item member => ?_
  obtain ⟨piece, inside, rfl⟩ := List.mem_map.mp member
  cases piece with
  | own occurrence =>
    have fine := accepted occurrence (List.mem_filterMap.mpr ⟨_, inside, rfl⟩)
    simp only [wireAround, Piece.item, if_true, wireOf, packed.found, wireFor]
    cases occurrence with
    | single word fits => simp only [Occurrence.value, fits, if_neg (not_packs_single packed)]
    | chunk words body wire =>
      rcases fine with notEnum | single
      · exact (if_pos (packs_chunk packed notEnum)).symm
      · exact absurd trivial single
  | other item =>
    have differs := input.others item (List.mem_filterMap.mpr ⟨_, inside, rfl⟩)
    exact if_neg differs

/-- A field of the message's own is read right where it is no enum, or from single elements. -/
theorem readsPacked_of_accepted (packed : PackedField pool descriptor number field)
    (own : Own descriptor number)
    (accepted : ∀ occurrence ∈ pieces.filterMap Piece.own?,
      field.type.getD .string ≠ .enum ∨ ¬ occurrence.Chunked)
    (input : PackedInput r number nonzero (wireOf pool descriptor) pieces) :
    ReadsPacked pool descriptor number field r pieces := by
  intro apart base alone decoded
  rw [DynMsg.decode_eq, decodeWith_eq_ok_iff alone.solvent, alone.limits, alone.depth] at decoded
  obtain ⟨items, wire, _, folded⟩ := decoded
  obtain rfl := alone.wire.unique (item_delimited _) wire
  rw [← PackedInput.foldlM_others nonzero (scalarWord (field.type.getD .string))] at folded
  obtain ⟨msg, whole, _, holds⟩ := Outcome.foldlM_interleaved
    (fun msg (piece : Piece _) => applyItem (DynMsg.decode pool) pool descriptor r.limits r.depth msg
      (piece.item number nonzero))
    (Beside number.toInt32) (Holds number)
    (Piece.values (scalarWord (field.type.getD .string)))
    (fun piece member vals same state other held beside holds => by
      cases piece with
      | own occurrence =>
        cases same
        exact applyItem_occurrence packed own _ occurrence
          (accepted occurrence (List.mem_filterMap.mpr ⟨_, member, rfl⟩)) (input.short member)
          (input.body member) input.shallow beside holds
      | other item => cases same)
    (fun piece member same state other after held beside holds applied => by
      cases piece with
      | own occurrence => cases same
      | other item =>
        have differs := input.others item (List.mem_filterMap.mpr ⟨_, member, rfl⟩)
        obtain ⟨next, moved, beside', kept⟩ :=
          beside.applyItem (fun wrong => differs (toInt32_inj wrong)) applied
        exact ⟨next, moved, beside', by rw [Holds, kept]; exact holds⟩)
    ⟨SortedMap.sorted_nil, SortedMap.sorted_nil, rfl, rfl, rfl, fun _ _ => rfl⟩
    (show Holds number (.new descriptor pool) [] from rfl)
    folded
  refine ⟨msg, ?_, ?_⟩
  · rw [DynMsg.decode_eq, decodeWith_eq_ok_iff input.solvent]
    refine ⟨_, wire_items packed accepted input, input.affords, ?_⟩
    rwa [List.foldlM_map]
  · rw [heldList, if_pos own, holds, values_elementsOf, List.nil_append]

private theorem decode_nothing : DynMsg.decode pool descriptor (Reader.withLimits .empty .unlimited) =
    .ok (.new descriptor pool) := rfl

/-- What decoding a lone item leaves. -/
private theorem decode_item {bytes : List UInt8} {item : Item} {msg : DynamicMessage}
    (rest : r.rest = bytes) (solvent : r.Solvent) (wire : item.Bytes (wireOf pool descriptor) bytes)
    (decoded : DynMsg.decode pool descriptor r = .ok msg) :
    applyItem (DynMsg.decode pool) pool descriptor r.limits r.depth (.new descriptor pool) item =
      .ok msg := by
  rw [DynMsg.decode_eq, decodeWith_eq_ok_iff solvent, rest] at decoded
  obtain ⟨items, wires, _, folded⟩ := decoded
  obtain rfl := (Sequence.single wire).unique (item_delimited _) wires
  rw [List.foldlM_cons, Outcome.bind_eq_ok] at folded
  obtain ⟨next, applied, rest⟩ := folded
  cases rest
  exact applied

/-- Under an extension's number a single element is stored by itself. -/
private theorem own_of_readsPacked (packed : PackedField pool descriptor number field)
    (nonzero : number ≠ 0) {word : UnknownValue}
    (fits : word.wireType = fieldWireType (field.type.getD .string))
    (sized : word.Sized) (short : word.bytes.length < 2 ^ 62)
    (reads : ReadsPacked pool descriptor number field
      ((Occurrence.single word fits).lone number) [.own (.single word fits)]) :
    Own descriptor number := by
  refine Decidable.byContradiction fun extension => ?_
  have missing : descriptor.findFieldByNumber number.toInt32 = none := by simpa [Own] using extension
  have ext : extensionFor pool descriptor number.toInt32 = some field := by
    simpa [declared, missing] using packed.found
  obtain ⟨msg, decoded, held⟩ := reads _ _ Occurrence.lone_apart decode_nothing
  have wire : Item.Bytes (wireOf pool descriptor) ⟨⟨number, word.wireType, nonzero⟩, word⟩
      ((Occurrence.single word fits).wire number) :=
    (tagWord_item word.wireType (valueBytes_bytes sized)).rewire (by
      simp only [wireOf, packed.found, wireFor, fits, if_neg (not_packs_single packed)])
  have rest : ((Occurrence.single word fits).lone number).rest =
      (Occurrence.single word fits).wire number := Occurrence.lone_rest short
  have applied := decode_item rest (Reader.withLimits_solvent _ _) wire decoded
  simp only [applyItem, missing, ext, interpret, if_neg packed.plain, fits,
    if_neg (not_packs_single packed), interpretScalar_word packed.packs fits, Outcome.ok_bind,
    Outcome.ok.injEq] at applied
  have stored := SortedMap.get?_insert (SortedMap.sorted_nil (κ := Int32) (α := Value))
    (field.number.getD number.toInt32) (field.number.getD number.toInt32)
    (scalarWord (field.type.getD .string) word)
  rw [if_pos rfl] at stored
  rw [heldList, if_neg extension, ← applied, DynMsg.new, stored] at held
  exact scalarWord_plain packed.packs fits _ held

/-- The length of an enum's chunk is read as a value. -/
private theorem notEnum_of_readsPacked (packed : PackedField pool descriptor number field)
    (nonzero : number ≠ 0) (own : Own descriptor number)
    (reads : ReadsPacked pool descriptor number field
      ((Occurrence.empty : Occurrence (fieldWireType (field.type.getD .string))).lone number)
      [.own .empty]) :
    field.type.getD .string ≠ .enum := by
  intro enum
  have found := packed.own own
  have unpacked : ¬ Packs field .lengthDelimited := fun packs => packs.2.2.1 enum
  have numbered : field.number = some number.toInt32 := by simpa using List.find?_some found
  obtain ⟨msg, decoded, held⟩ := reads _ _ Occurrence.lone_apart decode_nothing
  have wire : Item.Bytes (wireOf pool descriptor) ⟨⟨number, .lengthDelimited, nonzero⟩, .varint 0⟩
      ((Occurrence.empty : Occurrence (fieldWireType (field.type.getD .string))).wire number) :=
    (Occurrence.lone_zero _).rewire (by
      simp only [wireOf, packed.found, wireFor, if_neg unpacked, enum, fieldWireType])
  have applied := decode_item (Occurrence.lone_rest (Occurrence.empty_short _))
    (Reader.withLimits_solvent _ _) wire decoded
  simp only [applyItem, found, interpret, if_neg unpacked, enum, interpretScalar, insertField,
    packed.label, if_true, packed.notMap, Bool.false_eq_true, if_false, numbered, Option.getD_some]
    at applied
  cases applied
  rw [heldList, if_pos own] at held
  simp [DynMsg.getField, SortedMap.get?_upsert SortedMap.sorted_nil, appendValue, DynMsg.new,
    elementsOf, Piece.own?, Occurrence.words, Occurrence.empty] at held

/-- Every input of a repeated field is read right exactly if the field is one of the
message's own and no enum. -/
theorem readsEvery_iff (packed : PackedField pool descriptor number field) (nonzero : number ≠ 0) :
    ReadsEvery pool descriptor nonzero field (fun _ => True) ↔
      Own descriptor number ∧ field.type.getD .string ≠ .enum := by
  constructor
  · intro all
    obtain ⟨word, fits, sized, short⟩ := exists_word packed.packs
    have own := own_of_readsPacked packed nonzero fits sized short
      (all _ _ (Occurrence.lone_input sized short) fun _ _ => trivial)
    exact ⟨own, notEnum_of_readsPacked packed nonzero own
      (all _ _ (Occurrence.lone_input (Occurrence.empty_sized _) (Occurrence.empty_short _))
        fun _ _ => trivial)⟩
  · rintro ⟨own, notEnum⟩ r pieces input _
    exact readsPacked_of_accepted packed own (fun _ _ => .inl notEnum) input

/-- A field of the message's own is read right from single elements. -/
theorem readsEvery_single (packed : PackedField pool descriptor number field) (nonzero : number ≠ 0)
    (own : Own descriptor number) :
    ReadsEvery pool descriptor nonzero field (fun occurrence => ¬ occurrence.Chunked) :=
  fun _ _ input single =>
    readsPacked_of_accepted packed own (fun occurrence member => .inr (single occurrence member)) input

end Fields

end TptProto.Reflect
