import TptProto.Core.Occurrence
import TptProto.Reflect.Pool
import TptProto.Reflect.Oneof
import TptProto.Reflect.Nesting

/-! The extensions of a pool. One table holds them under their numbers, whatever message they
extend, and decoding any message takes them from there. -/

namespace TptProto.Reflect

open TptProto.Foundation TptProto.Core TptProto.Descriptor

mutual

/-- The extensions declared in a message and what it nests, as they are indexed. -/
def extensionsIn (m : DescriptorProto) : List FieldDescriptorProto :=
  match m with
  | ⟨name, _, extension, nestedType, _, _, _, _, _, _⟩ =>
    match name with
    | some _ => extensionsWithin nestedType ++ extension
    | none => []

def extensionsWithin (ms : List DescriptorProto) : List FieldDescriptorProto :=
  match ms with
  | [] => []
  | m :: rest => extensionsIn m ++ extensionsWithin rest

end

/-- The extensions of a set of files, in the order they are indexed. -/
def extensionsOf (set : FileDescriptorSet) : List FieldDescriptorProto :=
  set.file.flatMap fun file => extensionsWithin file.messageType ++ file.extension

/-- Entering one extension into the table. -/
def addExtension (table : List (Int32 × FieldDescriptorProto)) (x : FieldDescriptorProto) :
    List (Int32 × FieldDescriptorProto) :=
  match x.number with
  | some n => SortedMap.insert table n x
  | none => table

/-- The pool of a set of files whose extensions were indexed in some order. -/
def inOrder (set : FileDescriptorSet) (order : List FieldDescriptorProto) : DescriptorPool :=
  { DescriptorPool.fromSet set with extensions := order.foldl addExtension [] }

section Table

theorem extensionsWithin_eq (ms : List DescriptorProto) :
    extensionsWithin ms = ms.flatMap extensionsIn := by
  induction ms with
  | nil => rfl
  | cons m rest ih => rw [extensionsWithin, ih, List.flatMap_cons]

theorem indexExtension_extensions (pool : DescriptorPool) (x : FieldDescriptorProto)
    (scope : String) : (pool.indexExtension x scope).extensions = addExtension pool.extensions x := by
  unfold DescriptorPool.indexExtension addExtension
  cases x.number <;> rfl

theorem indexEnum_extensions (pool : DescriptorPool) (e : EnumDescriptorProto) (scope : String) :
    (pool.indexEnum e scope).extensions = pool.extensions := by
  unfold DescriptorPool.indexEnum
  cases e.name <;> rfl

/-- A loop whose passes each enter some extensions enters them all in turn. -/
private theorem foldl_extensions {α : Type} {step : DescriptorPool → α → DescriptorPool}
    {parts : α → List FieldDescriptorProto} {items : List α}
    (each : ∀ item ∈ items, ∀ pool,
      (step pool item).extensions = (parts item).foldl addExtension pool.extensions)
    (pool : DescriptorPool) :
    (items.foldl step pool).extensions =
      (items.flatMap parts).foldl addExtension pool.extensions := by
  induction items generalizing pool with
  | nil => rfl
  | cons item rest ih =>
    rw [List.foldl_cons, List.flatMap_cons, List.foldl_append, ← each item (by simp),
      ih fun other member => each other (by simp [member])]

/-- A loop over enums enters none. -/
private theorem foldl_indexEnum (pool : DescriptorPool) (enums : List EnumDescriptorProto)
    (scope : String) :
    (enums.foldl (fun pool e => pool.indexEnum e scope) pool).extensions = pool.extensions := by
  induction enums generalizing pool with
  | nil => rfl
  | cons e rest ih => rw [List.foldl_cons, ih, indexEnum_extensions]

private theorem foldl_indexExtension (pool : DescriptorPool) (xs : List FieldDescriptorProto)
    (scope : String) :
    (xs.foldl (fun pool x => pool.indexExtension x scope) pool).extensions =
      xs.foldl addExtension pool.extensions := by
  induction xs generalizing pool with
  | nil => rfl
  | cons x rest ih => rw [List.foldl_cons, List.foldl_cons, ih, indexExtension_extensions]

theorem indexMessage_extensions (m : DescriptorProto) (pool : DescriptorPool) (scope : String) :
    (pool.indexMessage m scope).extensions =
      (extensionsIn m).foldl addExtension pool.extensions := by
  induction m using DescriptorProto.induction generalizing pool scope with
  | step m nested =>
    obtain ⟨name, _, _, _, _, _, _, _, _, _⟩ := m
    unfold DescriptorPool.indexMessage extensionsIn
    cases name with
    | none => rfl
    | some own =>
      simp only [DescriptorPool.indexMessages_eq, extensionsWithin_eq]
      rw [foldl_indexExtension, foldl_indexEnum,
        foldl_extensions fun n member pool => nested n member pool _, List.foldl_append]

theorem indexFile_extensions (file : FileDescriptorProto) (pool : DescriptorPool) :
    (pool.indexFile file).extensions =
      (extensionsWithin file.messageType ++ file.extension).foldl addExtension
        pool.extensions := by
  simp only [DescriptorPool.indexFile, DescriptorPool.indexMessages_eq, extensionsWithin_eq]
  rw [foldl_indexExtension, foldl_indexEnum,
    foldl_extensions fun m _ pool => indexMessage_extensions m pool _, List.foldl_append]

/-- The pool of a set of files holds its extensions as indexed in their own order. -/
theorem fromSet_eq (set : FileDescriptorSet) :
    DescriptorPool.fromSet set = inOrder set (extensionsOf set) := by
  have table : (DescriptorPool.fromSet set).extensions =
      (extensionsOf set).foldl addExtension [] := by
    unfold DescriptorPool.fromSet
    simp only [apply_ite DescriptorPool.extensions, ite_self]
    refine foldl_extensions (fun file _ pool => ?_) DescriptorPool.empty
    rw [indexFile_extensions]
    split <;> rfl
  rw [inOrder, ← table]

/-- The table is looked up by number alone and holds the extension indexed last. -/
theorem getExtension_inOrder (set : FileDescriptorSet) (order : List FieldDescriptorProto)
    (number : Int32) :
    (inOrder set order).getExtension number =
      (order.filter fun x => x.number = some number).getLast? := by
  have general (table : List (Int32 × FieldDescriptorProto)) (sorted : SortedMap.Sorted table) :
      SortedMap.get? (order.foldl addExtension table) number =
        (order.filter fun x => x.number = some number).getLast?.or
          (SortedMap.get? table number) := by
    induction order generalizing table with
    | nil => rfl
    | cons x rest ih =>
      rw [List.foldl_cons]
      cases own : x.number with
      | none => rw [addExtension, own, ih table sorted, List.filter_cons_of_neg (by simp [own])]
      | some n =>
        rw [addExtension, own, ih _ (sorted.insert n x), SortedMap.get?_insert sorted]
        by_cases same : n = number
        · subst same
          rw [List.filter_cons_of_pos (by simp [own]), List.getLast?_cons, if_pos rfl]
          cases (rest.filter fun y => y.number = some n).getLast? <;> rfl
        · rw [List.filter_cons_of_neg (by simpa [own] using same), if_neg (Ne.symm same)]
  rw [DescriptorPool.getExtension, inOrder, general [] SortedMap.sorted_nil]
  simp

end Table

section Decode

variable (pool : DescriptorPool) (descriptor : DescriptorProto) (limits : DecoderLimits)
  (depth : UInt32)

/-- The values read from the items with a number, as an extension's. -/
def readings (ext : FieldDescriptorProto) (number : Int32) (items : List Item) :
    ReflectResult (List Value) :=
  (items.filter fun item => item.tag.fieldNumber.toInt32 = number).mapM fun item =>
    interpret (DynMsg.decode pool) pool limits depth ext item.tag.wireType item.value

variable {pool descriptor limits depth}

/-- The extension a number of no field decodes as. -/
def taken (pool : DescriptorPool) (descriptor : DescriptorProto) (number : Int32) :
    Option FieldDescriptorProto :=
  match descriptor.findFieldByNumber number with
  | some _ => none
  | none => extensionFor pool descriptor number

/-- Every extension of the pool is held under its own number. -/
def Tabled (pool : DescriptorPool) : Prop :=
  ∀ number ext, pool.getExtension number = some ext → ext.number = some number

theorem taken_eq_some {number : Int32} {ext : FieldDescriptorProto} :
    taken pool descriptor number = some ext ↔ descriptor.findFieldByNumber number = none ∧
      inExtensionRange descriptor number = true ∧ pool.getExtension number = some ext := by
  unfold taken extensionFor
  cases descriptor.findFieldByNumber number <;> simp

theorem insertField_extensions {msg msg' : DynamicMessage} {field : FieldDescriptorProto}
    {val : Value} (inserted : insertField msg field val = .ok msg') :
    msg'.extensions = msg.extensions := by
  obtain ⟨update, rfl⟩ := insertField_fields inserted
  rfl

/-- What one item changes of the extensions: it replaces the value under its number. -/
theorem applyItem_extensions (tabled : Tabled pool) {msg msg' : DynamicMessage} {item : Item}
    (applied : applyItem (DynMsg.decode pool) pool descriptor limits depth msg item = .ok msg') :
    match taken pool descriptor item.tag.fieldNumber.toInt32 with
    | some ext => ∃ value, interpret (DynMsg.decode pool) pool limits depth ext
          item.tag.wireType item.value = .ok value ∧
        msg'.extensions =
          SortedMap.insert msg.extensions item.tag.fieldNumber.toInt32 value
    | none => msg'.extensions = msg.extensions := by
  unfold applyItem at applied
  simp only at applied
  cases found : descriptor.findFieldByNumber item.tag.fieldNumber.toInt32 with
  | some field =>
    simp only [found] at applied
    obtain ⟨val, _, inserted⟩ := Outcome.bind_eq_ok.mp applied
    have none : taken pool descriptor item.tag.fieldNumber.toInt32 = none := by rw [taken, found]
    rw [none]
    exact insertField_extensions inserted
  | none =>
    have same : taken pool descriptor item.tag.fieldNumber.toInt32 =
        extensionFor pool descriptor item.tag.fieldNumber.toInt32 := by rw [taken, found]
    simp only [found] at applied
    cases kept : extensionFor pool descriptor item.tag.fieldNumber.toInt32 with
    | some ext =>
      simp only [kept] at applied
      obtain ⟨val, read, stored⟩ := Outcome.bind_eq_ok.mp applied
      cases stored
      rw [kept] at same
      rw [same, tabled _ _ (taken_eq_some.mp same).2.2, Option.getD_some]
      exact ⟨val, read, rfl⟩
    | none =>
      simp only [kept] at applied
      obtain ⟨_, _, stored⟩ := Outcome.bind_eq_ok.mp applied
      cases stored
      rw [same, kept]

/-- Items of other numbers leave an extension alone. -/
private theorem applyItem_beside (tabled : Tabled pool) {msg msg' : DynamicMessage} {item : Item}
    (sorted : SortedMap.Sorted msg.extensions)
    (applied : applyItem (DynMsg.decode pool) pool descriptor limits depth msg item = .ok msg') :
    SortedMap.Sorted msg'.extensions ∧ ∀ number,
      (number = item.tag.fieldNumber.toInt32 → taken pool descriptor number = none) →
        SortedMap.get? msg'.extensions number = SortedMap.get? msg.extensions number := by
  have here := applyItem_extensions tabled applied
  split at here
  · rename_i ext kept
    obtain ⟨value, _, inserted⟩ := here
    refine ⟨inserted ▸ sorted.insert _ _, fun number differs => ?_⟩
    rw [inserted, SortedMap.get?_insert sorted, if_neg]
    rintro rfl
    rw [differs rfl] at kept
    cases kept
  · rw [here]
    exact ⟨sorted, fun _ _ => rfl⟩

/-- A number that decodes as an extension holds the value of its last item, as the extension in
the table reads it. No other number holds anything new. -/
theorem foldlM_extensions (tabled : Tabled pool) {items : List Item} {msg msg' : DynamicMessage}
    (sorted : SortedMap.Sorted msg.extensions)
    (folded : items.foldlM (applyItem (DynMsg.decode pool) pool descriptor limits depth) msg =
      .ok msg') (number : Int32) :
    match taken pool descriptor number with
    | some ext => ∃ values, readings pool limits depth ext number items = .ok values ∧
        SortedMap.get? msg'.extensions number =
          values.getLast?.or (SortedMap.get? msg.extensions number)
    | none => SortedMap.get? msg'.extensions number = SortedMap.get? msg.extensions number := by
  induction items generalizing msg with
  | nil =>
    cases folded
    split
    · exact ⟨[], rfl, rfl⟩
    · rfl
  | cons item rest ih =>
    rw [List.foldlM_cons, Outcome.bind_eq_ok] at folded
    obtain ⟨next, applied, folded⟩ := folded
    obtain ⟨sorted', beside⟩ := applyItem_beside tabled sorted applied
    have later := ih sorted' folded
    cases kept : taken pool descriptor number with
    | none =>
      simp only [kept] at later ⊢
      rw [later, beside number fun _ => kept]
    | some ext =>
      simp only [kept] at later ⊢
      obtain ⟨values, reads, held⟩ := later
      by_cases own : item.tag.fieldNumber.toInt32 = number
      · subst own
        have here := applyItem_extensions tabled applied
        simp only [kept] at here
        obtain ⟨value, read, inserted⟩ := here
        refine ⟨value :: values, ?_, ?_⟩
        · rw [readings] at reads ⊢
          rw [List.filter_cons_of_pos (by simp), List.mapM_cons, read, Outcome.ok_bind, reads]
          rfl
        · rw [held, inserted, SortedMap.get?_insert sorted, if_pos rfl, List.getLast?_cons]
          cases values.getLast? <;> rfl
      · refine ⟨values, ?_, ?_⟩
        · rw [readings] at reads ⊢
          rw [List.filter_cons_of_neg (by simpa using own), reads]
        · rw [held, beside number fun same => absurd same.symm own]

end Decode

/-- The extension is declared for the message of this name. -/
def Extends (name : String) (x : FieldDescriptorProto) : Prop :=
  x.extendee.map normal = some name

/-- What the occurrences of an extension amount to: all of them in turn if it is repeated, else
the last. -/
def accumulated (ext : FieldDescriptorProto) (values : List Value) : Option Value :=
  if ext.label = some .repeated then
    values.foldl (fun held value => some (appendValue held value)) none
  else values.getLast?

instance (name : String) (x : FieldDescriptorProto) : Decidable (Extends name x) :=
  inferInstanceAs (Decidable (_ = _))

/-- Nothing yet, or a list. -/
private def Listed (held : Option Value) : Prop :=
  ∀ value, held = some value → ∃ items, value = .list items

private theorem Listed.append {held : Option Value} (listed : Listed held) (value : Value) :
    Listed (some (appendValue held value)) := by
  intro _ same
  cases same
  cases held with
  | none => cases value <;> exact ⟨_, rfl⟩
  | some old =>
    obtain ⟨items, rfl⟩ := listed old rfl
    cases value <;> exact ⟨_, rfl⟩

/-- The occurrences of a repeated extension amount to a list. -/
theorem accumulated_list {ext : FieldDescriptorProto} {values : List Value} {value : Value}
    (repeated : ext.label = some .repeated) (amounts : accumulated ext values = some value) :
    ∃ items, value = .list items := by
  have listed (held : Option Value) (start : Listed held) :
      Listed (values.foldl (fun held value => some (appendValue held value)) held) := by
    clear amounts
    induction values generalizing held with
    | nil => exact start
    | cons first rest ih => exact ih _ (start.append first)
  rw [accumulated, if_pos repeated] at amounts
  exact listed none nofun value amounts

/-- Extensions are decoded by message and number: whatever the order they were indexed in, what a
message of this name and descriptor holds under an extension's number was read as an extension
declared for it, and is all that the extension's occurrences amount to. -/
def Keyed (set : FileDescriptorSet) (name : String) (descriptor : DescriptorProto) : Prop :=
  ∀ order : List FieldDescriptorProto, order.Perm (extensionsOf set) →
    ∀ (bytes : Slice) (limits : DecoderLimits) (depth : UInt32) (msg : DynamicMessage)
      (items : List Item) (number : Int32) (value : Value),
      DynMsg.decode (inOrder set order) descriptor (startAt bytes limits depth) = .ok msg →
      Items (wireOf (inOrder set order) descriptor) items bytes.bytes →
      SortedMap.get? msg.extensions number = some value →
      ∃ ext ∈ extensionsOf set, ext.number = some number ∧ Extends name ext ∧
        taken (inOrder set order) descriptor number = some ext ∧
        ∃ values, readings (inOrder set order) limits depth ext number items = .ok values ∧
          accumulated ext values = some value

/-- Values of the extension can be read: its message type, if it is of one, is in the pool. -/
def Resolvable (pool : DescriptorPool) (x : FieldDescriptorProto) : Prop :=
  x.type.getD .string = .message ∨ x.type.getD .string = .group →
    (messageType pool x).isSome = true

/-- Of the extensions of the set, those whose numbers the message leaves to extensions are declared
for it and singular. -/
def SoleExtendee (set : FileDescriptorSet) (name : String) (descriptor : DescriptorProto) : Prop :=
  ∀ x ∈ extensionsOf set, ∀ number, x.number = some number → number ≠ 0 →
    inExtensionRange descriptor number = true → descriptor.findFieldByNumber number = none →
    Resolvable (DescriptorPool.fromSet set) x → Extends name x ∧ x.label ≠ some .repeated

section Keyed

variable {set : FileDescriptorSet} {name : String} {descriptor : DescriptorProto}
  {order : List FieldDescriptorProto}

private theorem mem_of_getExtension {number : Int32} {ext : FieldDescriptorProto}
    (found : (inOrder set order).getExtension number = some ext) :
    ext ∈ order ∧ ext.number = some number := by
  rw [getExtension_inOrder] at found
  simpa using List.mem_filter.mp (List.mem_of_getLast? found)

/-- Indexing an extension enters it under its own number. -/
theorem tabled_inOrder (set : FileDescriptorSet) (order : List FieldDescriptorProto) :
    Tabled (inOrder set order) :=
  fun _ _ found => (mem_of_getExtension found).2

/-- What is read of a field shows that it can be. -/
theorem resolvable_of_interpret {pool : DescriptorPool} {limits : DecoderLimits} {depth : UInt32}
    {field : FieldDescriptorProto} {wire : WireType} {word : UnknownValue} {value : Value}
    (read : interpret (DynMsg.decode pool) pool limits depth field wire word = .ok value) :
    Resolvable pool field := by
  intro message
  rw [interpret, if_pos message] at read
  obtain ⟨sub, found, _⟩ := Outcome.bind_eq_ok.mp read
  rw [Outcome.ofOption_eq_ok.mp found]
  rfl

/-- No item has the number zero. -/
theorem number_ne_zero (item : Item) : item.tag.fieldNumber.toInt32 ≠ 0 := by
  intro zero
  apply item.tag.nonzero
  apply toInt32_inj
  rw [zero]
  decide

private theorem resolvable_inOrder {x : FieldDescriptorProto} :
    Resolvable (inOrder set order) x ↔ Resolvable (DescriptorPool.fromSet set) x := by
  simp only [Resolvable, messageType, DescriptorPool.lookupMessage, inOrder]

theorem keyed_of_sole (sole : SoleExtendee set name descriptor) : Keyed set name descriptor := by
  intro order indexed bytes limits depth msg items number value accepted wire held
  rw [DynMsg.decode_eq, decodeWith_eq_ok_iff (startAt_solvent bytes limits depth)] at accepted
  obtain ⟨items', wire', _, folded⟩ := accepted
  obtain rfl := Sequence.unique (item_delimited _) wire wire'
  have final := foldlM_extensions (tabled_inOrder set order) SortedMap.sorted_nil folded number
  cases kept : taken (inOrder set order) descriptor number with
  | none =>
    simp only [kept, held] at final
    cases final
  | some ext =>
    simp only [kept] at final
    obtain ⟨values, reads, last⟩ := final
    have lastRead : values.getLast? = some value := by
      rw [held] at last
      simpa [DynMsg.new] using last.symm
    obtain ⟨missing, inRange, found⟩ := taken_eq_some.mp kept
    obtain ⟨member, numbered⟩ := mem_of_getExtension found
    obtain ⟨item, occurs, read⟩ :=
      (Outcome.mapM_eq_ok_mem reads).2 value (List.mem_of_getLast? lastRead)
    have same : item.tag.fieldNumber.toInt32 = number := by
      simpa using (List.mem_filter.mp occurs).2
    have nonzero : number ≠ 0 := same ▸ number_ne_zero item
    obtain ⟨own, singular⟩ := sole ext (indexed.mem_iff.mp member) number numbered nonzero
      inRange missing (resolvable_inOrder.mp (resolvable_of_interpret read))
    refine ⟨ext, indexed.mem_iff.mp member, numbered, own, rfl, values, reads, ?_⟩
    rw [accumulated, if_neg singular, lastRead]

/-- Some value of every scalar type can be read from the wire. -/
private theorem exists_scalar {t : FieldType} (plain : ¬ (t = .message ∨ t = .group)) :
    ∃ (word : UnknownValue) (value : ScalarValue ⊕ Int32), word.wireType = fieldWireType t ∧
      word.Sized ∧ word.bytes.length ≤ 8 ∧
      (word.wireType = .lengthDelimited → packedAllowed t = false) ∧
      interpretScalar .unlimited t word = .ok (value.elim .scalar .enum) := by
  have empty : (UnknownValue.lengthDelimited []).Sized := by simp [UnknownValue.Sized]
  cases t with
  | message | group => simp at plain
  | string | bytes =>
    exact ⟨.lengthDelimited [], .inl _, rfl, empty, by decide, fun _ => rfl, rfl⟩
  | int32 | int64 | uint32 | uint64 | sint32 | sint64 | bool =>
    exact ⟨.varint 0, .inl _, rfl, trivial, by decide, nofun, rfl⟩
  | enum => exact ⟨.varint 0, .inr _, rfl, trivial, by decide, nofun, rfl⟩
  | fixed32 | sfixed32 | float =>
    exact ⟨.fixed32 0, .inl _, rfl, trivial, by decide, nofun, rfl⟩
  | fixed64 | sfixed64 | double =>
    exact ⟨.fixed64 0, .inl _, rfl, trivial, by decide, nofun, rfl⟩

/-- Some value of every resolvable field type can be read from the wire, and is no list. -/
theorem exists_reading (pool : DescriptorPool) {x : FieldDescriptorProto}
    (resolvable : Resolvable pool x) :
    ∃ (word : UnknownValue) (value : Value), word.wireType = fieldWireType (x.type.getD .string) ∧
      word.Sized ∧ word.bytes.length ≤ 8 ∧ ¬ Packs x word.wireType ∧
      interpret (DynMsg.decode pool) pool .unlimited 0 x word.wireType word = .ok value ∧
      ∀ items, value ≠ .list items := by
  by_cases message : x.type.getD .string = .message ∨ x.type.getD .string = .group
  · obtain ⟨sub, found⟩ := Option.isSome_iff_exists.mp (resolvable message)
    have empty : (UnknownValue.lengthDelimited []).Sized := by simp [UnknownValue.Sized]
    refine ⟨.lengthDelimited [], .message (.new sub pool), ?_, empty, by decide, ?_, ?_,
      by rintro _ ⟨⟩⟩
    · rcases message with same | same <;> rw [same] <;> rfl
    · rintro ⟨_, packs, _⟩
      rcases message with same | same <;> rw [same] at packs <;> cases packs
    · rw [interpret, if_pos message, found]
      rfl
  · obtain ⟨word, value, kind, sized, short, unpacked, read⟩ := exists_scalar message
    have single : ¬ Packs x word.wireType := fun packs => by
      have allowed := packs.2.1
      rw [unpacked packs.1] at allowed
      cases allowed
    refine ⟨word, value.elim .scalar .enum, kind, sized, short, single, ?_, fun items => ?_⟩
    · rw [interpret, if_neg message, if_neg single]
      exact read
    · cases value <;> rintro ⟨⟩

/-- Items laid one after another are decoded to what they are applied to. -/
theorem decode_laid {pool : DescriptorPool} {depth : UInt32} {items : List Item}
    {msg : DynamicMessage} (layable : ∀ item ∈ items, item.Layable (wireOf pool descriptor))
    (short : (items.flatMap Item.laid).length < 2 ^ 63)
    (folded : items.foldlM (applyItem (DynMsg.decode pool) pool descriptor .unlimited depth)
      (.new descriptor pool) = .ok msg) :
    DynMsg.decode pool descriptor (startAt (.ofBytes (items.flatMap Item.laid)) .unlimited depth) =
        .ok msg ∧
      Items (wireOf pool descriptor) items (Slice.ofBytes (items.flatMap Item.laid)).bytes := by
  have wire : Items (wireOf pool descriptor) items
      (Slice.ofBytes (items.flatMap Item.laid)).bytes := by
    rw [Slice.bytes_ofBytes short]
    exact items_laid layable
  refine ⟨?_, wire⟩
  rw [DynMsg.decode_eq, decodeWith_eq_ok_iff (startAt_solvent _ _ _)]
  exact ⟨items, wire, affords_unlimited rfl items, folded⟩

/-- One occurrence of the extension indexed last shows whether it may be decoded. -/
theorem sole_of_keyed (keyed : Keyed set name descriptor) : SoleExtendee set name descriptor := by
  intro x member number numbered nonzero inRange missing resolvable
  have indexed : ((extensionsOf set).erase x ++ [x]).Perm (extensionsOf set) :=
    (List.perm_append_singleton x _).trans (List.perm_cons_erase member).symm
  generalize placed : (extensionsOf set).erase x ++ [x] = order at indexed
  have found : (inOrder set order).getExtension number = some x := by
    rw [getExtension_inOrder, ← placed, List.filter_append]
    simp [numbered]
  have kept : taken (inOrder set order) descriptor number = some x :=
    taken_eq_some.mpr ⟨missing, inRange, found⟩
  obtain ⟨word, value, kind, sized, short, single, read, notList⟩ :=
    exists_reading (inOrder set order) (resolvable_inOrder.mpr resolvable)
  have raw : number.toUInt32 ≠ 0 := fun zero => nonzero (by
    rw [← Int32.toInt32_toUInt32 number, zero]
    rfl)
  have back : number.toUInt32.toInt32 = number := Int32.toInt32_toUInt32 number
  generalize number.toUInt32 = tagged at raw back
  subst back
  have wired : word.wireType =
      wireOf (inOrder set order) descriptor ⟨tagged, word.wireType, raw⟩ := by
    simp only [wireOf, declared, missing, Option.none_or, extensionFor, inRange, if_true, found,
      wireFor, if_neg single]
    exact kind
  have applied : applyItem (DynMsg.decode (inOrder set order)) (inOrder set order) descriptor
      .unlimited 0 (.new descriptor (inOrder set order)) ⟨⟨tagged, word.wireType, raw⟩, word⟩ =
      .ok { DynMsg.new descriptor (inOrder set order) with
        extensions := SortedMap.insert [] tagged.toInt32 value } := by
    simp only [applyItem, missing, extensionFor, inRange, if_true, found, read, Outcome.ok_bind,
      numbered, Option.getD_some]
    rfl
  have layable : ∀ item ∈ [(⟨⟨tagged, word.wireType, raw⟩, word⟩ : Item)],
      item.Layable (wireOf (inOrder set order) descriptor) := by
    intro item lone
    rw [List.mem_singleton.mp lone]
    exact ⟨wired, sized⟩
  have small : (Item.laid ⟨⟨tagged, word.wireType, raw⟩, word⟩).length ≤ 10 + word.bytes.length :=
    Item.laid_length _
  obtain ⟨decoded, items⟩ := decode_laid layable
    (by rw [List.flatMap_singleton]; exact Nat.lt_of_le_of_lt small (by omega))
    (by rw [List.foldlM_cons]; exact Outcome.bind_eq_ok.mpr ⟨_, applied, rfl⟩)
  have stored : SortedMap.get? (SortedMap.insert [] tagged.toInt32 value) tagged.toInt32 =
      some value := by
    rw [SortedMap.get?_insert SortedMap.sorted_nil, if_pos rfl]
  obtain ⟨ext, _, _, own, same, values, _, amounts⟩ :=
    keyed order indexed _ _ _ _ _ _ _ decoded items stored
  obtain rfl : x = ext := Option.some.inj (kept.symm.trans same)
  refine ⟨own, fun repeated => ?_⟩
  obtain ⟨items, listed⟩ := accumulated_list repeated amounts
  exact notList items listed

end Keyed

private def extensible (name : String) : DescriptorProto where
  name := some name
  extensionRange := [{ start := 100, stop := 199 }]

/-- `message M` and `message N` with extensions from 100, and `extend N { repeated int32 x = 100; }`. -/
private def twoMessages : FileDescriptorSet where
  file :=
    [{ messageType := [extensible "M", extensible "N"]
       extension :=
         [{ name := some "x", number := some 100, label := some .repeated, type := some .int32,
            extendee := some ".N" }] }]

end TptProto.Reflect
