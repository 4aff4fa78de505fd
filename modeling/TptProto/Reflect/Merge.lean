import TptProto.Reflect.Extensions

/-! Decoding a concatenation as a merge: what one message leaves is carried on by the next, except
that the dynamic decoder replaces what it should merge. -/

namespace TptProto.Reflect

open TptProto.Foundation TptProto.Core TptProto.Descriptor

/-- Decoding on from a message. -/
def continueWith (pool : DescriptorPool) (descriptor : DescriptorProto) (msg : DynamicMessage)
    (reader : Reader) : ReflectResult DynamicMessage := do
  let (msg, _) ← reader.drain (decodeStep (DynMsg.decode pool) pool descriptor) msg
  .ok msg

/-- Fields that hold one message. -/
def SingularMessage (field : FieldDescriptorProto) : Prop :=
  (field.type.getD .string = .message ∨ field.type.getD .string = .group) ∧
    field.label ≠ some .repeated

instance (field : FieldDescriptorProto) : Decidable (SingularMessage field) :=
  inferInstanceAs (Decidable (_ ∧ _))

/-- What an occurrence comes to beside the value held: a message is merged field by field. -/
def interpretInto (pool : DescriptorPool) (limits : DecoderLimits) (depth : UInt32)
    (field : FieldDescriptorProto) (held : Option Value) (wire : WireType) (value : UnknownValue) :
    ReflectResult Value :=
  match held with
  | some (.message dm) =>
    if SingularMessage field then do
      let sub ← Outcome.ofOption (.unresolvedType (field.typeName.getD "")) (messageType pool field)
      let subReader ← (Reader.nestedAt limits depth (.ofBytes value.payload)).mapErr .wire
      let dm ← continueWith pool sub dm subReader
      .ok (.message dm)
    else interpret (DynMsg.decode pool) pool limits depth field wire value
  | _ => interpret (DynMsg.decode pool) pool limits depth field wire value

/-- The elements a value adds to a repeated field. -/
def elementsIn : Value → List Value
  | .list items => items
  | other => [other]

/-- What an extension holds after an occurrence: repeated ones append. -/
def extended (ext : FieldDescriptorProto) (held : Option Value) (val : Value) : Value :=
  if ext.label = some .repeated then .list (held.elim [] elementsIn ++ elementsIn val) else val

/-- Merging one item into a message. -/
def mergeItem (pool : DescriptorPool) (descriptor : DescriptorProto) (limits : DecoderLimits)
    (depth : UInt32) (msg : DynamicMessage) (item : Item) : ReflectResult DynamicMessage :=
  let number := item.tag.fieldNumber.toInt32
  match descriptor.findFieldByNumber number with
  | some field => do
    let val ← interpretInto pool limits depth field (msg.getField (field.number.getD 0))
      item.tag.wireType item.value
    insertField msg field val
  | none =>
    match extensionFor pool descriptor number with
    | some ext => do
      let held := SortedMap.get? msg.extensions (ext.number.getD number)
      let val ← interpretInto pool limits depth ext held item.tag.wireType item.value
      .ok { msg with
        extensions := SortedMap.insert msg.extensions (ext.number.getD number)
          (extended ext held val) }
    | none => do
      let unknown ← (msg.unknown.keep limits item).mapErr .wire
      .ok { msg with unknown }

/-- Decoding two buffers after one another, where the limits on bytes and fields allow it, gives
exactly what merging the second into the message of the first gives. -/
def Concatenates (pool : DescriptorPool) (descriptor : DescriptorProto) : Prop :=
  ∀ (first second whole : Slice) (limits : DecoderLimits) (depth : UInt32)
    (msg later : DynamicMessage) (items items' : List Item),
    whole.bytes = first.bytes ++ second.bytes →
    DynMsg.decode pool descriptor (startAt first limits depth) = .ok msg →
    DynMsg.decode pool descriptor (startAt second limits depth) = .ok later →
    Items (wireOf pool descriptor) items first.bytes →
    Items (wireOf pool descriptor) items' second.bytes →
    Affords (startAt whole limits depth) (items ++ items') →
    ∀ final, DynMsg.decode pool descriptor (startAt whole limits depth) = .ok final ↔
      items'.foldlM (mergeItem pool descriptor limits depth) msg = .ok final

/-- No field or extension that can be read holds one message, and no such extension is repeated. -/
structure ReplacesNothing (pool : DescriptorPool) (descriptor : DescriptorProto) : Prop where
  fields : ∀ number field, number ≠ 0 → descriptor.findFieldByNumber number = some field →
    Resolvable pool field → ¬ SingularMessage field
  extensions : ∀ number ext, number ≠ 0 → taken pool descriptor number = some ext →
    Resolvable pool ext → ¬ SingularMessage ext ∧ ext.label ≠ some .repeated

section Merge

variable {pool : DescriptorPool} {descriptor : DescriptorProto} {limits : DecoderLimits}
  {depth : UInt32}

/-- Without a message to merge into, an occurrence is read as it is. -/
theorem interpretInto_eq {field : FieldDescriptorProto} {held : Option Value} {wire : WireType}
    {value : UnknownValue} (plain : Resolvable pool field → ¬ SingularMessage field) :
    interpretInto pool limits depth field held wire value =
      interpret (DynMsg.decode pool) pool limits depth field wire value := by
  unfold interpretInto
  split
  · split
    · rename_i single
      have unresolved : messageType pool field = none := by
        cases found : messageType pool field with
        | none => rfl
        | some sub => exact absurd single (plain fun _ => by rw [found]; rfl)
      rw [interpret, if_pos single.1, unresolved]
      rfl
    · rfl
  · rfl

theorem mergeItem_eq_ok_iff (replaces : ReplacesNothing pool descriptor) {msg final : DynamicMessage}
    {item : Item} :
    mergeItem pool descriptor limits depth msg item = .ok final ↔
      applyItem (DynMsg.decode pool) pool descriptor limits depth msg item = .ok final := by
  have nonzero := number_ne_zero item
  simp only [mergeItem, applyItem]
  cases found : descriptor.findFieldByNumber item.tag.fieldNumber.toInt32 with
  | some field => simp only [interpretInto_eq (replaces.fields _ _ nonzero found)]
  | none =>
    cases kept : extensionFor pool descriptor item.tag.fieldNumber.toInt32 with
    | none => rfl
    | some ext =>
      have isTaken : taken pool descriptor item.tag.fieldNumber.toInt32 = some ext := by
        rw [taken, found]
        exact kept
      have plain := replaces.extensions _ _ nonzero isTaken
      simp only [interpretInto_eq fun resolvable => (plain resolvable).1, Outcome.bind_eq_ok]
      refine exists_congr fun value => and_congr_right fun read => ?_
      rw [extended, if_neg (plain (resolvable_of_interpret read)).2]

theorem concatenates_of_replaces (replaces : ReplacesNothing pool descriptor) :
    Concatenates pool descriptor := by
  intro first second whole limits depth msg later items items' joined decoded _ wire wire' affords
    final
  rw [DynMsg.decode_eq, decodeWith_eq_ok_iff (startAt_solvent _ _ _)] at decoded
  obtain ⟨itemsRead, wireRead, _, folded⟩ := decoded
  obtain rfl := Sequence.unique (item_delimited _) wire wireRead
  have whole : Items (wireOf pool descriptor) (items ++ items') whole.bytes :=
    joined ▸ Sequence.append wire wire'
  rw [DynMsg.decode_eq, decodeWith_eq_ok_iff (startAt_solvent _ _ _),
    Outcome.foldlM_ok_congr fun _ _ _ _ => mergeItem_eq_ok_iff replaces]
  constructor
  · rintro ⟨itemsWhole, wireWhole, _, foldedWhole⟩
    obtain rfl := Sequence.unique (item_delimited _) whole wireWhole
    rw [List.foldlM_append, Outcome.bind_eq_ok] at foldedWhole
    obtain ⟨middle, before, after⟩ := foldedWhole
    obtain rfl := Outcome.ok.inj (folded.symm.trans before)
    exact after
  · intro carried
    refine ⟨_, whole, affords, ?_⟩
    rw [List.foldlM_append]
    exact Outcome.bind_eq_ok.mpr ⟨msg, folded, carried⟩

/-- The fields of the pool's messages and its extensions have numbers that fit a tag. -/
structure TagNumbered (pool : DescriptorPool) : Prop where
  fields : ∀ entry ∈ pool.messages, ∀ field ∈ entry.2.field, ∀ number,
    field.number = some number → number.toUInt32.toNat < 2 ^ 29
  extensions : ∀ number ext, pool.getExtension number = some ext → number.toUInt32.toNat < 2 ^ 29

theorem mem_of_lookup {α : Type} {entries : List (String × α)} {typeName : String} {value : α}
    (found : DescriptorPool.lookup entries typeName = some value) : ∃ key, (key, value) ∈ entries := by
  unfold DescriptorPool.lookup at found
  simp only at found
  split at found
  · rename_i same
    cases found
    exact ⟨_, SortedMap.mem_of_get? same⟩
  · obtain ⟨entry, first, rfl⟩ := Option.map_eq_some_iff.mp found
    exact ⟨entry.1, List.mem_of_find?_eq_some first⟩

/-- A field no descriptor declares. -/
private def stray : Item := ⟨⟨536870912, .varint, Tag.nonzero_past⟩, .varint 0⟩

private def strayMessage (pool : DescriptorPool) (sub : DescriptorProto) : DynamicMessage :=
  { DynMsg.new sub pool with unknown := UnknownFieldSet.empty.insert 536870912 (.varint 0) }

private theorem decode_stray (numbered : TagNumbered pool) {field : FieldDescriptorProto}
    {sub : DescriptorProto} (resolved : messageType pool field = some sub) :
    DynMsg.decode pool sub (Reader.childAt .unlimited 0 (.ofBytes stray.laid)) =
      .ok (strayMessage pool sub) := by
  obtain ⟨key, member⟩ := mem_of_lookup resolved
  have missing : sub.findFieldByNumber (536870912 : UInt32).toInt32 = none := by
    rw [DescriptorProto.findFieldByNumber, List.find?_eq_none]
    intro f inside same
    have small := numbered.fields _ member f inside _ (of_decide_eq_true same)
    exact absurd small (by decide)
  have untaken : extensionFor pool sub (536870912 : UInt32).toInt32 = none := by
    unfold extensionFor
    split
    · cases found : pool.getExtension (536870912 : UInt32).toInt32 with
      | none => rfl
      | some ext => exact absurd (numbered.extensions _ _ found) (by decide)
    · rfl
  have applied : applyItem (DynMsg.decode pool) pool sub .unlimited 1 (.new sub pool) stray =
      .ok (strayMessage pool sub) := by
    simp only [applyItem, stray, missing, untaken]
    rfl
  have layable : ∀ item ∈ [stray], item.Layable (wireOf pool sub) := by
    intro item lone
    rw [List.mem_singleton.mp lone]
    exact ⟨by simp only [wireOf, stray, declared, missing, untaken]; rfl, trivial⟩
  have folded : [stray].foldlM (applyItem (DynMsg.decode pool) pool sub .unlimited 1)
      (.new sub pool) = .ok (strayMessage pool sub) := by
    rw [List.foldlM_cons]
    exact Outcome.bind_eq_ok.mpr ⟨_, applied, rfl⟩
  have decoded := (decode_laid layable (by decide) folded).1
  rw [List.flatMap_singleton] at decoded
  exact decoded

/-- Where a field's or an extension's value is kept. -/
private structure Kept (pool : DescriptorPool) (descriptor : DescriptorProto) (number : Int32)
    (field : FieldDescriptorProto) (held : DynamicMessage → Option Value)
    (store : DynamicMessage → Value → DynamicMessage) : Prop where
  declared : declared pool descriptor number = some field
  applies : ∀ msg item, item.tag.fieldNumber.toInt32 = number →
    applyItem (DynMsg.decode pool) pool descriptor .unlimited 0 msg item = (do
      let val ← interpret (DynMsg.decode pool) pool .unlimited 0 field item.tag.wireType item.value
      .ok (store msg val))
  merges : ∀ msg item, item.tag.fieldNumber.toInt32 = number →
    mergeItem pool descriptor .unlimited 0 msg item = (do
      let val ← interpretInto pool .unlimited 0 field (held msg) item.tag.wireType item.value
      .ok (store msg val))
  here : ∀ val, held (store (.new descriptor pool) val) = some val
  again : ∀ val next, held (store (store (.new descriptor pool) val) next) = some next

/-- Of two items laid one after another, the second is applied as it is merged. -/
private theorem merge_of_applied (concatenates : Concatenates pool descriptor) {item item' : Item}
    (layable : item.Layable (wireOf pool descriptor))
    (layable' : item'.Layable (wireOf pool descriptor)) (short : item.laid.length < 2 ^ 40)
    (short' : item'.laid.length < 2 ^ 40) {msg later final : DynamicMessage}
    (applied : applyItem (DynMsg.decode pool) pool descriptor .unlimited 0 (.new descriptor pool)
      item = .ok msg)
    (alone : applyItem (DynMsg.decode pool) pool descriptor .unlimited 0 (.new descriptor pool)
      item' = .ok later)
    (again : applyItem (DynMsg.decode pool) pool descriptor .unlimited 0 msg item' = .ok final) :
    mergeItem pool descriptor .unlimited 0 msg item' = .ok final := by
  have single {α : Type} {f : DynamicMessage → α → ReflectResult DynamicMessage} {start : DynamicMessage}
      {x : α} {result : DynamicMessage} : [x].foldlM f start = .ok result ↔ f start x = .ok result := by
    rw [List.foldlM_cons, Outcome.bind_eq_ok]
    simp
  have each : ∀ other ∈ [item, item'], other.Layable (wireOf pool descriptor) := by
    simpa using ⟨layable, layable'⟩
  have lengths : ([item].flatMap Item.laid).length < 2 ^ 63 ∧
      ([item'].flatMap Item.laid).length < 2 ^ 63 ∧
      ([item, item'].flatMap Item.laid).length < 2 ^ 63 := by
    simp only [List.flatMap_cons, List.flatMap_nil, List.length_append, List.length_nil]
    omega
  obtain ⟨decoded, items⟩ := decode_laid (fun other member => each other (by simp_all)) lengths.1
    (single.mpr applied)
  obtain ⟨decoded', items'⟩ := decode_laid (fun other member => each other (by simp_all)) lengths.2.1
    (single.mpr alone)
  have folded : [item, item'].foldlM (applyItem (DynMsg.decode pool) pool descriptor .unlimited 0)
      (.new descriptor pool) = .ok final := by
    rw [List.foldlM_cons]
    exact Outcome.bind_eq_ok.mpr ⟨msg, applied, single.mpr again⟩
  obtain ⟨decodedWhole, _⟩ := decode_laid each lengths.2.2 folded
  have joined : (Slice.ofBytes ([item, item'].flatMap Item.laid)).bytes =
      (Slice.ofBytes ([item].flatMap Item.laid)).bytes ++
        (Slice.ofBytes ([item'].flatMap Item.laid)).bytes := by
    rw [Slice.bytes_ofBytes lengths.1, Slice.bytes_ofBytes lengths.2.1,
      Slice.bytes_ofBytes lengths.2.2]
    simp
  exact single.mp ((concatenates _ _ _ _ _ _ _ _ _ joined decoded decoded' items items'
    (affords_unlimited rfl _) final).mp decodedWhole)

/-- A message that is met again shows whether it is merged. -/
private theorem not_single (numbered : TagNumbered pool) (concatenates : Concatenates pool descriptor)
    {number : Int32} {field : FieldDescriptorProto} {held : DynamicMessage → Option Value}
    {store : DynamicMessage → Value → DynamicMessage} (nonzero : number ≠ 0)
    (kept : Kept pool descriptor number field held store) (resolvable : Resolvable pool field) :
    ¬ SingularMessage field := by
  intro single
  obtain ⟨sub, resolved⟩ := Option.isSome_iff_exists.mp (resolvable single.1)
  have raw : number.toUInt32 ≠ 0 := fun zero => nonzero (by
    rw [← Int32.toInt32_toUInt32 number, zero]
    rfl)
  have back : number.toUInt32.toInt32 = number := Int32.toInt32_toUInt32 number
  generalize number.toUInt32 = tagged at raw back
  subst back
  have unpacked : ¬ Packs field .lengthDelimited := by
    rintro ⟨_, packs, _⟩
    rcases single.1 with same | same <;> rw [same] at packs <;> cases packs
  let item (body : List UInt8) : Item := ⟨⟨tagged, .lengthDelimited, raw⟩, .lengthDelimited body⟩
  have layable (body : List UInt8) (short : body.length < 2 ^ 64) :
      (item body).Layable (wireOf pool descriptor) := by
    refine ⟨?_, short⟩
    simp only [wireOf, item, kept.declared, wireFor, if_neg unpacked]
    rcases single.1 with same | same <;> rw [same] <;> rfl
  have read (body : List UInt8) (dm : DynamicMessage)
      (decoded : DynMsg.decode pool sub (Reader.childAt .unlimited 0 (.ofBytes body)) = .ok dm) :
      interpret (DynMsg.decode pool) pool .unlimited 0 field .lengthDelimited
        (.lengthDelimited body) = .ok (.message dm) := by
    rw [interpret, if_pos single.1, resolved, Outcome.ofOption_some, Outcome.ok_bind]
    exact Outcome.bind_eq_ok.mpr ⟨_, rfl, Outcome.bind_eq_ok.mpr ⟨dm, decoded, rfl⟩⟩
  have strange := decode_stray numbered resolved
  have blank : DynMsg.decode pool sub (Reader.childAt .unlimited 0 (.ofBytes [])) =
      .ok (.new sub pool) := rfl
  have short (body : List UInt8) (few : body.length < 2 ^ 32) :
      (item body).laid.length < 2 ^ 40 := by
    have header := (encodeVarint_length_bounds (UInt64.ofNat body.length)).2
    have laid := Item.laid_length (item body)
    have width : (item body).value.bytes.length =
        (encodeVarint (UInt64.ofNat body.length)).length + body.length := List.length_append
    omega
  have few : stray.laid.length < 2 ^ 32 := by decide
  have step (msg : DynamicMessage) (body : List UInt8) (dm : DynamicMessage)
      (decoded : DynMsg.decode pool sub (Reader.childAt .unlimited 0 (.ofBytes body)) = .ok dm) :
      applyItem (DynMsg.decode pool) pool descriptor .unlimited 0 msg (item body) =
        .ok (store msg (.message dm)) := by
    rw [kept.applies msg (item body) rfl]
    exact Outcome.bind_eq_ok.mpr ⟨_, read body dm decoded, rfl⟩
  have merged := merge_of_applied concatenates (layable stray.laid (by decide)) (layable [] (by decide))
    (short stray.laid few) (short [] (by decide)) (step _ _ _ strange) (step _ _ _ blank)
    (step _ _ _ blank)
  rw [kept.merges _ (item []) rfl, kept.here] at merged
  have intoStray : interpretInto pool .unlimited 0 field (some (.message (strayMessage pool sub)))
      .lengthDelimited (.lengthDelimited []) = .ok (.message (strayMessage pool sub)) := by
    rw [interpretInto, if_pos single, resolved]
    rfl
  simp only [item, intoStray, Outcome.ok_bind, Outcome.ok.injEq] at merged
  have same := congrArg held merged
  rw [kept.again, kept.again] at same
  injection same with same
  injection same with same
  have unknown := congrArg DynMsg.unknown same
  cases congrArg UnknownFieldSet.entries unknown

private theorem kept_field {number : Int32} {field : FieldDescriptorProto}
    (found : descriptor.findFieldByNumber number = some field) (single : SingularMessage field) :
    Kept pool descriptor number field (fun msg => msg.getField number)
      fun msg val => { msg with fields := SortedMap.insert msg.fields number val } := by
  have numbered : field.number = some number := by simpa using List.find?_some found
  refine ⟨by rw [declared, found]; rfl, fun msg item same => ?_, fun msg item same => ?_,
    fun val => ?_, fun val next => ?_⟩
  · simp only [applyItem, same, found, insertField, if_neg single.2, numbered, Option.getD_some]
  · simp only [mergeItem, same, found, insertField, if_neg single.2, numbered, Option.getD_some]
  · exact (SortedMap.get?_insert SortedMap.sorted_nil number number val).trans (if_pos rfl)
  · exact (SortedMap.get?_insert (SortedMap.sorted_nil.insert number val) number number next).trans
      (if_pos rfl)

private theorem kept_extension {number : Int32} {ext : FieldDescriptorProto}
    (kept : taken pool descriptor number = some ext) (numbered : ext.number = some number)
    (singular : ext.label ≠ some .repeated) :
    Kept pool descriptor number ext (fun msg => SortedMap.get? msg.extensions number)
      fun msg val => { msg with extensions := SortedMap.insert msg.extensions number val } := by
  obtain ⟨missing, inRange, found⟩ := taken_eq_some.mp kept
  refine ⟨by simp [declared, missing, extensionFor, inRange, found], fun msg item same => ?_,
    fun msg item same => ?_, fun val => ?_, fun val next => ?_⟩
  · simp only [applyItem, same, missing, extensionFor, inRange, if_true, found, numbered,
      Option.getD_some]
  · simp only [mergeItem, same, missing, extensionFor, inRange, if_true, found, numbered,
      Option.getD_some, extended, if_neg singular]
  · exact (SortedMap.get?_insert SortedMap.sorted_nil number number val).trans (if_pos rfl)
  · exact (SortedMap.get?_insert (SortedMap.sorted_nil.insert number val) number number next).trans
      (if_pos rfl)

/-- An extension that is met again shows whether it is appended. -/
private theorem not_repeated (concatenates : Concatenates pool descriptor) {number : Int32}
    {ext : FieldDescriptorProto} (nonzero : number ≠ 0)
    (kept : taken pool descriptor number = some ext) (numbered : ext.number = some number)
    (resolvable : Resolvable pool ext) : ext.label ≠ some .repeated := by
  intro repeated
  obtain ⟨missing, inRange, found⟩ := taken_eq_some.mp kept
  obtain ⟨word, value, kind, sized, small, single, read, notList⟩ := exists_reading pool resolvable
  have raw : number.toUInt32 ≠ 0 := fun zero => nonzero (by
    rw [← Int32.toInt32_toUInt32 number, zero]
    rfl)
  have back : number.toUInt32.toInt32 = number := Int32.toInt32_toUInt32 number
  generalize number.toUInt32 = tagged at raw back
  subst back
  let item : Item := ⟨⟨tagged, word.wireType, raw⟩, word⟩
  have layable : item.Layable (wireOf pool descriptor) := by
    refine ⟨?_, sized⟩
    simp only [wireOf, item, declared, missing, Option.none_or, extensionFor, inRange, if_true,
      found, wireFor, if_neg single]
    exact kind
  have short : item.laid.length < 2 ^ 40 :=
    Nat.lt_of_le_of_lt (Item.laid_length item) (Nat.lt_of_le_of_lt (Nat.add_le_add_left small 10)
      (by decide))
  have step (msg : DynamicMessage) :
      applyItem (DynMsg.decode pool) pool descriptor .unlimited 0 msg item =
        .ok { msg with extensions := SortedMap.insert msg.extensions tagged.toInt32 value } := by
    simp only [applyItem, item, missing, extensionFor, inRange, if_true, found, read,
      Outcome.ok_bind, numbered, Option.getD_some]
  have merged := merge_of_applied concatenates layable layable short short (step _) (step _) (step _)
  have plain (held : Option Value) : interpretInto pool .unlimited 0 ext held word.wireType word =
      .ok value := by
    unfold interpretInto
    split
    · rw [if_neg fun singular => singular.2 repeated]
      exact read
    · exact read
  simp only [mergeItem, item, missing, extensionFor, inRange, if_true, found, plain,
    Outcome.ok_bind, numbered, Option.getD_some, extended, if_pos repeated, Outcome.ok.injEq]
    at merged
  have sorted : SortedMap.Sorted (SortedMap.insert ([] : List (Int32 × Value)) tagged.toInt32 value) :=
    SortedMap.sorted_nil.insert tagged.toInt32 value
  have same := congrArg (fun msg => SortedMap.get? msg.extensions tagged.toInt32) merged
  simp only [DynMsg.new, SortedMap.get?_insert sorted, if_true, Option.some.injEq] at same
  exact notList _ same.symm

/-- Decoding a concatenation merges exactly for the messages of which nothing is replaced. -/
theorem concatenates_iff (numbered : TagNumbered pool) (tabled : Tabled pool) :
    Concatenates pool descriptor ↔ ReplacesNothing pool descriptor := by
  refine ⟨fun concatenates => ⟨fun number field nonzero found resolvable single => ?_,
    fun number ext nonzero kept resolvable => ?_⟩, concatenates_of_replaces⟩
  · exact not_single numbered concatenates nonzero (kept_field found single) resolvable single
  · have own := tabled number ext (taken_eq_some.mp kept).2.2
    have singular := not_repeated concatenates nonzero kept own resolvable
    exact ⟨not_single numbered concatenates nonzero (kept_extension kept own singular) resolvable,
      singular⟩

end Merge

end TptProto.Reflect
