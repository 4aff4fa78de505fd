import TptProto.Reflect.Resync

/-! Oneof exclusivity. `set_field` clears the other members of a oneof; the decode loop
inserts fields without clearing anything. -/

namespace TptProto.Reflect

open TptProto.Foundation TptProto.Core TptProto.Descriptor

namespace DynMsg

variable {V : Type}

def IsSet (msg : DynMsg V) (number : Int32) : Prop :=
  SortedMap.contains msg.fields number = true

/-- No two members of a oneof are set. -/
def Exclusive (msg : DynMsg V) : Prop :=
  ∀ first second oneof, msg.IsSet first → msg.IsSet second → msg.oneofOf first = some oneof →
    msg.oneofOf second = some oneof → first = second

/-- The keys of a message's field map ascend, as a B-tree's do. -/
def Ordered (msg : DynMsg V) : Prop := SortedMap.Sorted msg.fields

theorem new_ordered {descriptor : DescriptorProto} {pool : DescriptorPool} :
    (DynMsg.new descriptor pool : DynMsg V).Ordered := SortedMap.sorted_nil

end DynMsg

section Maps

variable {V : Type}

theorem contains_upsert {fields : List (Int32 × V)} (sorted : SortedMap.Sorted fields)
    (key other : Int32) (update : Option V → V) :
    SortedMap.contains (SortedMap.upsert fields key update) other = true ↔
      other = key ∨ SortedMap.contains fields other = true := by
  simp only [SortedMap.contains, SortedMap.get?_upsert sorted]
  split <;> simp_all

theorem contains_removeAll (fields : List (Int32 × V)) (numbers : List Int32) (number : Int32) :
    SortedMap.contains (DynMsg.removeAll fields numbers) number = true ↔
      SortedMap.contains fields number = true ∧ number ∉ numbers := by
  induction numbers generalizing fields with
  | nil => simp [DynMsg.removeAll]
  | cons key rest ih =>
    have step : SortedMap.contains (SortedMap.erase fields key) number = true ↔
        SortedMap.contains fields number = true ∧ number ≠ key := by
      simp only [SortedMap.contains, SortedMap.get?_erase]
      split <;> simp_all
    refine (ih (SortedMap.erase fields key)).trans ?_
    rw [step]
    simp [and_assoc]

theorem sorted_removeAll {fields : List (Int32 × V)} (sorted : SortedMap.Sorted fields)
    (numbers : List Int32) : SortedMap.Sorted (DynMsg.removeAll fields numbers) := by
  induction numbers generalizing fields with
  | nil => exact sorted
  | cons key rest ih => exact ih (sorted.erase key)

end Maps

namespace DynMsg

variable {V : Type} {msg : DynMsg V}

/-- A number with a oneof is among that oneof's members. -/
theorem mem_members {number oneof : Int32} (belongs : msg.oneofOf number = some oneof) :
    number ∈ msg.members oneof := by
  obtain ⟨f, found, same⟩ := Option.bind_eq_some_iff.mp belongs
  have numbered : f.number = some number := by simpa using List.find?_some found
  refine List.mem_filterMap.mpr ⟨f, ?_, numbered⟩
  exact List.mem_filter.mpr ⟨List.mem_of_find?_eq_some found, by simpa using same⟩

theorem setField_ordered (ordered : msg.Ordered) (number : Int32) (value : V) :
    (msg.setField number value).Ordered := by
  unfold setField Ordered
  refine SortedMap.Sorted.insert ?_ number value
  split
  · exact sorted_removeAll ordered _
  · exact ordered

theorem clearField_ordered (ordered : msg.Ordered) (number : Int32) :
    (msg.clearField number).Ordered := by
  unfold clearField
  split
  · exact sorted_removeAll ordered _
  · exact SortedMap.Sorted.erase ordered number

/-- After a set, the other members of the field's oneof are clear. -/
theorem isSet_setField (ordered : msg.Ordered) {number other : Int32} {value : V}
    (here : (msg.setField number value).IsSet other) :
    other = number ∨ msg.IsSet other ∧
      ∀ oneof, msg.oneofOf number = some oneof → msg.oneofOf other ≠ some oneof := by
  unfold setField IsSet at here
  simp only [SortedMap.insert] at here
  split at here
  · rename_i oneof belongs
    rcases (contains_upsert (sorted_removeAll ordered _) _ _ _).mp here with same | old
    · exact .inl same
    · obtain ⟨set, kept⟩ := (contains_removeAll _ _ _).mp old
      by_cases same : other = number
      · exact .inl same
      · refine .inr ⟨set, fun oneof' belongs' clash => kept ?_⟩
        have sameOneof : oneof = oneof' := Option.some.inj (belongs.symm.trans belongs')
        subst sameOneof
        exact List.mem_filter.mpr ⟨mem_members clash, by simpa using same⟩
  · rename_i none
    rcases (contains_upsert ordered _ _ _).mp here with same | old
    · exact .inl same
    · exact .inr ⟨old, fun oneof belongs => by simp [none] at belongs⟩

theorem setField_exclusive (ordered : msg.Ordered) (exclusive : msg.Exclusive) (number : Int32)
    (value : V) : (msg.setField number value).Exclusive := by
  intro first second oneof set₁ set₂ belongs₁ belongs₂
  rcases isSet_setField ordered set₁ with rfl | ⟨old₁, apart₁⟩
  · rcases isSet_setField ordered set₂ with same | ⟨_, apart₂⟩
    · exact same.symm
    · exact absurd belongs₂ (apart₂ oneof belongs₁)
  · rcases isSet_setField ordered set₂ with rfl | ⟨old₂, _⟩
    · exact absurd belongs₁ (apart₁ oneof belongs₂)
    · exact exclusive first second oneof old₁ old₂ belongs₁ belongs₂

theorem isSet_clearField {number other : Int32} (here : (msg.clearField number).IsSet other) :
    msg.IsSet other := by
  unfold clearField at here
  split at here
  · exact ((contains_removeAll _ _ _).mp here).1
  · simp only [IsSet, SortedMap.contains, SortedMap.get?_erase] at here
    split at here
    · cases here
    · exact here

theorem clearField_exclusive (exclusive : msg.Exclusive) (number : Int32) :
    (msg.clearField number).Exclusive := by
  have desc : (msg.clearField number).descriptor = msg.descriptor := by
    unfold clearField
    split <;> rfl
  intro first second oneof set₁ set₂ belongs₁ belongs₂
  simp only [oneofOf, desc] at belongs₁ belongs₂
  exact exclusive first second oneof (isSet_clearField set₁) (isSet_clearField set₂) belongs₁ belongs₂

end DynMsg

section Decode

variable {pool : DescriptorPool} {descriptor : DescriptorProto} {recurse : Recurse}
  {limits : DecoderLimits} {depth : UInt32}

/-- What inserting a decoded value changes of the field map. -/
theorem insertField_fields {msg msg' : DynamicMessage} {field : FieldDescriptorProto} {val : Value}
    (inserted : insertField msg field val = .ok msg') :
    ∃ update, msg' = { msg with fields := SortedMap.upsert msg.fields (field.number.getD 0) update } := by
  unfold insertField at inserted
  simp only at inserted
  split at inserted
  · split at inserted
    · split at inserted
      · cases inserted
        exact ⟨_, rfl⟩
      · cases inserted
    · cases inserted
      exact ⟨_, rfl⟩
  · cases inserted
    exact ⟨_, rfl⟩

/-- An item sets the field its number finds, and nothing else. -/
theorem applyItem_isSet {msg msg' : DynamicMessage} {item : Item}
    (ordered : msg.Ordered)
    (applied : applyItem recurse pool descriptor limits depth msg item = .ok msg') :
    msg'.Ordered ∧ msg'.descriptor = msg.descriptor ∧ msg'.pool = msg.pool ∧
      ∀ number, msg'.IsSet number ↔
        (number = item.tag.fieldNumber.toInt32 ∧
          (descriptor.findFieldByNumber number).isSome = true) ∨ msg.IsSet number := by
  unfold applyItem at applied
  simp only at applied
  split at applied
  · rename_i field found
    obtain ⟨val, _, inserted⟩ := Outcome.bind_eq_ok.mp applied
    obtain ⟨update, rfl⟩ := insertField_fields inserted
    have numbered : field.number = some item.tag.fieldNumber.toInt32 := by
      simpa using List.find?_some found
    refine ⟨SortedMap.Sorted.upsert ordered _ _, rfl, rfl, fun number => ?_⟩
    simp only [DynMsg.IsSet, contains_upsert ordered, numbered, Option.getD_some]
    constructor
    · rintro (rfl | old)
      · exact .inl ⟨rfl, by rw [found]; rfl⟩
      · exact .inr old
    · rintro (⟨rfl, _⟩ | old)
      · exact .inl rfl
      · exact .inr old
  · rename_i missing
    have untouched : msg'.fields = msg.fields ∧ msg'.descriptor = msg.descriptor ∧
        msg'.pool = msg.pool := by
      split at applied
      · obtain ⟨_, _, same⟩ := Outcome.bind_eq_ok.mp applied
        cases same
        exact ⟨rfl, rfl, rfl⟩
      · obtain ⟨_, _, same⟩ := Outcome.bind_eq_ok.mp applied
        cases same
        exact ⟨rfl, rfl, rfl⟩
    refine ⟨?_, untouched.2.1, untouched.2.2, fun number => ?_⟩
    · rw [DynMsg.Ordered, untouched.1]
      exact ordered
    · simp only [DynMsg.IsSet, untouched.1]
      constructor
      · exact .inr
      · rintro (⟨rfl, found⟩ | old)
        · rw [missing] at found
          cases found
        · exact old

/-- The field numbers of items, as the decoder narrows them. -/
def numbersOf (items : List Item) : List Int32 := items.map fun item => item.tag.fieldNumber.toInt32

theorem foldlM_applyItem_isSet {items : List Item} {msg msg' : DynamicMessage}
    (ordered : msg.Ordered)
    (folded : items.foldlM (applyItem recurse pool descriptor limits depth) msg = .ok msg') :
    msg'.Ordered ∧ msg'.descriptor = msg.descriptor ∧ msg'.pool = msg.pool ∧
      ∀ number, msg'.IsSet number ↔
        (number ∈ numbersOf items ∧ (descriptor.findFieldByNumber number).isSome = true) ∨
          msg.IsSet number := by
  induction items generalizing msg with
  | nil =>
    cases folded
    exact ⟨ordered, rfl, rfl, by simp [numbersOf]⟩
  | cons item rest ih =>
    rw [List.foldlM_cons, Outcome.bind_eq_ok] at folded
    obtain ⟨next, applied, folded⟩ := folded
    obtain ⟨ordered', desc, pool, set⟩ := applyItem_isSet ordered applied
    obtain ⟨ordered'', desc', pool', set'⟩ := ih ordered' folded
    refine ⟨ordered'', desc'.trans desc, pool'.trans pool, fun number => ?_⟩
    rw [set', set]
    simp only [numbersOf, List.map_cons, List.mem_cons]
    grind

end Decode

/-- The oneof a number belongs to in messages of a descriptor. -/
def oneofIn (descriptor : DescriptorProto) (number : Int32) : Option Int32 :=
  (descriptor.findFieldByNumber number).bind fun f => f.oneofIndex

/-- The occurrences of a oneof's members among field numbers. -/
def occurrences (descriptor : DescriptorProto) (oneof : Int32) (numbers : List Int32) : List Int32 :=
  numbers.filter fun number => oneofIn descriptor number = some oneof

/-- Each oneof occurs through one member at most. -/
def SingleMember (descriptor : DescriptorProto) (numbers : List Int32) : Prop :=
  ∀ oneof, ∀ first ∈ occurrences descriptor oneof numbers,
    ∀ second ∈ occurrences descriptor oneof numbers, first = second

/-- Every field is the one found under its number. -/
def Numbered (descriptor : DescriptorProto) : Prop :=
  ∀ f ∈ descriptor.field, ∃ number, f.number = some number ∧
    descriptor.findFieldByNumber number = some f

/-- At most one member of each oneof is set, and it is the last on the wire. -/
def LastMember (descriptor : DescriptorProto) (numbers : List Int32) (msg : DynamicMessage) : Prop :=
  msg.Exclusive ∧ ∀ oneof, msg.whichOneof oneof = (occurrences descriptor oneof numbers).getLast?

theorem mem_occurrences {descriptor : DescriptorProto} {oneof number : Int32}
    {numbers : List Int32} :
    number ∈ occurrences descriptor oneof numbers ↔
      number ∈ numbers ∧ oneofIn descriptor number = some oneof := by
  simp [occurrences]

section Decode

variable {pool : DescriptorPool} {descriptor : DescriptorProto} {bytes : Slice}
  {limits : DecoderLimits} {depth : UInt32} {msg : DynamicMessage} {items : List Item}

/-- What is set after decoding is what occurred and is declared. -/
theorem decode_isSet (accepted : DynMsg.decode pool descriptor (startAt bytes limits depth) = .ok msg)
    (wire : Items (wireOf pool descriptor) items bytes.bytes) :
    msg.Ordered ∧ msg.descriptor = descriptor ∧ ∀ number, msg.IsSet number ↔
      number ∈ numbersOf items ∧ (descriptor.findFieldByNumber number).isSome = true := by
  obtain ⟨items', wire', _, folded⟩ :=
    (decodeWith_eq_ok_iff (startAt_solvent bytes limits depth)).mp accepted
  obtain rfl := Sequence.unique (item_delimited _) wire wire'
  obtain ⟨ordered, desc, _, set⟩ := foldlM_applyItem_isSet DynMsg.new_ordered folded
  refine ⟨ordered, desc, fun number => (set number).trans ?_⟩
  simp [DynMsg.IsSet, DynMsg.new, SortedMap.contains]

theorem isSet_of_occurrence
    (set : ∀ number, msg.IsSet number ↔
      number ∈ numbersOf items ∧ (descriptor.findFieldByNumber number).isSome = true)
    {oneof number : Int32} (occurs : number ∈ occurrences descriptor oneof (numbersOf items)) :
    msg.IsSet number := by
  obtain ⟨member, belongs⟩ := mem_occurrences.mp occurs
  obtain ⟨f, found, _⟩ := Option.bind_eq_some_iff.mp belongs
  exact (set number).mpr ⟨member, by rw [found]; rfl⟩

private theorem whichOneof_eq (numbered : Numbered descriptor) (desc : msg.descriptor = descriptor)
    (set : ∀ number, msg.IsSet number ↔
      number ∈ numbersOf items ∧ (descriptor.findFieldByNumber number).isSome = true)
    (single : SingleMember descriptor (numbersOf items)) (oneof : Int32) :
    msg.whichOneof oneof = (occurrences descriptor oneof (numbersOf items)).getLast? := by
  have occurs {f : FieldDescriptorProto} (member : f ∈ descriptor.field)
      (active : f.oneofIndex = some oneof ∧ msg.IsSet (f.number.getD 0)) :
      ∃ number, f.number = some number ∧
        number ∈ occurrences descriptor oneof (numbersOf items) := by
    obtain ⟨number, isNumber, found⟩ := numbered f member
    rw [isNumber] at active
    refine ⟨number, isNumber, mem_occurrences.mpr ⟨((set number).mp active.2).1, ?_⟩⟩
    rw [oneofIn, found]
    exact active.1
  cases last : (occurrences descriptor oneof (numbersOf items)).getLast? with
  | none =>
    rw [DynMsg.whichOneof, desc, Option.bind_eq_none_iff]
    intro f found
    have member := List.mem_of_find?_eq_some found
    obtain ⟨number, _, inside⟩ := occurs member (by simpa [DynMsg.IsSet] using List.find?_some found)
    rw [List.getLast?_eq_none_iff.mp last] at inside
    cases inside
  | some number =>
    have inside := List.mem_of_getLast? last
    obtain ⟨_, belongs⟩ := mem_occurrences.mp inside
    obtain ⟨f, found, index⟩ := Option.bind_eq_some_iff.mp belongs
    have isNumber : f.number = some number := by simpa using List.find?_some found
    have present : (descriptor.field.find? fun f =>
        f.oneofIndex = some oneof && SortedMap.contains msg.fields (f.number.getD 0)).isSome := by
      refine List.find?_isSome.mpr ⟨f, List.mem_of_find?_eq_some found, ?_⟩
      have here := isSet_of_occurrence set inside
      simpa [isNumber, index, DynMsg.IsSet] using here
    obtain ⟨g, chosen⟩ := Option.isSome_iff_exists.mp present
    obtain ⟨other, isOther, occurs⟩ := occurs (List.mem_of_find?_eq_some chosen)
      (by simpa [DynMsg.IsSet] using List.find?_some chosen)
    rw [DynMsg.whichOneof, desc, chosen]
    simp only [Option.bind_some, isOther, single oneof other occurs number inside]

/-- Decoding leaves each oneof with its last member alone exactly when the wire never
switches between members. -/
theorem decode_lastMember_iff (numbered : Numbered descriptor)
    (accepted : DynMsg.decode pool descriptor (startAt bytes limits depth) = .ok msg)
    (wire : Items (wireOf pool descriptor) items bytes.bytes) :
    LastMember descriptor (numbersOf items) msg ↔ SingleMember descriptor (numbersOf items) := by
  obtain ⟨_, desc, set⟩ := decode_isSet accepted wire
  have belongs (number : Int32) : msg.oneofOf number = oneofIn descriptor number := by
    rw [DynMsg.oneofOf, desc, oneofIn]
  constructor
  · rintro ⟨exclusive, _⟩ oneof first occurs₁ second occurs₂
    exact exclusive first second oneof (isSet_of_occurrence set occurs₁)
      (isSet_of_occurrence set occurs₂) ((belongs first).trans (mem_occurrences.mp occurs₁).2)
      ((belongs second).trans (mem_occurrences.mp occurs₂).2)
  · intro single
    refine ⟨?_, whichOneof_eq numbered desc set single⟩
    intro first second oneof set₁ set₂ belongs₁ belongs₂
    rw [belongs] at belongs₁ belongs₂
    exact single oneof first (mem_occurrences.mpr ⟨((set first).mp set₁).1, belongs₁⟩)
      second (mem_occurrences.mpr ⟨((set second).mp set₂).1, belongs₂⟩)

end Decode

/-- The messages of a descriptor reachable by decoding wires that never switch between
members of a oneof, setting fields and clearing fields. -/
inductive Reached (pool : DescriptorPool) (descriptor : DescriptorProto) : DynamicMessage → Prop where
  | created : Reached pool descriptor (.new descriptor pool)
  | decoded {bytes : Slice} {limits : DecoderLimits} {depth : UInt32} {msg : DynamicMessage}
      {items : List Item}
      (accepted : DynMsg.decode pool descriptor (startAt bytes limits depth) = .ok msg)
      (wire : Items (wireOf pool descriptor) items bytes.bytes)
      (single : SingleMember descriptor (numbersOf items)) : Reached pool descriptor msg
  | set {msg : DynamicMessage} (before : Reached pool descriptor msg) (number : Int32)
      (value : Value) : Reached pool descriptor (msg.setField number value)
  | cleared {msg : DynamicMessage} (before : Reached pool descriptor msg) (number : Int32) :
      Reached pool descriptor (msg.clearField number)

/-- The invariant of those messages. -/
theorem reached_invariant {pool : DescriptorPool} {descriptor : DescriptorProto}
    {msg : DynamicMessage} (numbered : Numbered descriptor) (reached : Reached pool descriptor msg) :
    msg.Ordered ∧ msg.Exclusive := by
  induction reached with
  | created =>
    refine ⟨DynMsg.new_ordered, fun first second oneof set => ?_⟩
    simp [DynMsg.IsSet, DynMsg.new, SortedMap.contains] at set
  | decoded accepted wire single =>
    exact ⟨(decode_isSet accepted wire).1, ((decode_lastMember_iff numbered accepted wire).mpr single).1⟩
  | set _ number value ih =>
    exact ⟨DynMsg.setField_ordered ih.1 number value, DynMsg.setField_exclusive ih.1 ih.2 number value⟩
  | cleared _ number ih =>
    exact ⟨DynMsg.clearField_ordered ih.1 number, DynMsg.clearField_exclusive ih.2 number⟩

section Examples

/-- `message M { oneof choice { int32 a = 1; int32 b = 2; } }`. -/
def choiceMessage : DescriptorProto :=
  { name := some "M"
    field :=
      [{ name := some "a", number := some 1, label := some .optional, type := some .int32,
         oneofIndex := some 0 },
       { name := some "b", number := some 2, label := some .optional, type := some .int32,
         oneofIndex := some 0 }]
    oneofDecl := [{ name := some "choice" }] }

private theorem choiceMessage_numbered : Numbered choiceMessage := by
  intro f member
  simp only [choiceMessage, List.mem_cons, List.not_mem_nil, or_false] at member
  rcases member with rfl | rfl
  · exact ⟨1, rfl, rfl⟩
  · exact ⟨2, rfl, rfl⟩

end Examples

end TptProto.Reflect

/-! What a message holds after one of its fields is set. -/

namespace TptProto.Reflect

open TptProto.Foundation TptProto.Core TptProto.Descriptor

namespace DynMsg

variable {V : Type}

theorem get?_removeAll (fields : List (Int32 × V)) (numbers : List Int32) (number : Int32) :
    SortedMap.get? (removeAll fields numbers) number =
      if number ∈ numbers then none else SortedMap.get? fields number := by
  induction numbers generalizing fields with
  | nil => rfl
  | cons key rest inductionHypothesis =>
    show SortedMap.get? (removeAll (SortedMap.erase fields key) rest) number = _
    rw [inductionHypothesis, SortedMap.get?_erase]
    simp only [List.mem_cons]
    split <;> split <;> simp_all

end DynMsg

/-- Setting the first number clears the second: another member of the same oneof. -/
def displaces (desc : DescriptorProto) (number other : Int32) : Bool :=
  match (desc.findFieldByNumber number).bind fun f => f.oneofIndex with
  | some oneof =>
    other ≠ number && ((desc.field.filter fun g => g.oneofIndex = some oneof).filterMap fun g =>
      g.number).contains other
  | none => false

namespace DynMsg

variable {V : Type} {msg : DynMsg V}

@[simp] theorem setField_descriptor (number : Int32) (value : V) :
    (msg.setField number value).descriptor = msg.descriptor := rfl

@[simp] theorem setField_pool (number : Int32) (value : V) :
    (msg.setField number value).pool = msg.pool := rfl

@[simp] theorem setField_extensions (number : Int32) (value : V) :
    (msg.setField number value).extensions = msg.extensions := rfl

@[simp] theorem setField_unknown (number : Int32) (value : V) :
    (msg.setField number value).unknown = msg.unknown := rfl

theorem getField_setField (ordered : msg.Ordered) (number other : Int32) (value : V) :
    (msg.setField number value).getField other =
      if other = number then some value
      else if displaces msg.descriptor number other then none
      else msg.getField other := by
  have oneofIs : msg.oneofOf number =
      (msg.descriptor.findFieldByNumber number).bind fun f => f.oneofIndex := rfl
  unfold setField getField displaces
  rw [← oneofIs]
  cases msg.oneofOf number with
  | none => simp only [SortedMap.get?_insert ordered, Bool.false_eq_true, if_false]
  | some oneof =>
    simp only [SortedMap.get?_insert (sorted_removeAll ordered _), get?_removeAll, members,
      List.mem_filter]
    by_cases same : other = number
    · rw [if_pos same, if_pos same]
    · rw [if_neg same, if_neg same]
      simp only [Bool.and_eq_true, List.contains_iff_mem, and_comm]

theorem getField_setField_self (ordered : msg.Ordered) (number : Int32) (value : V) :
    (msg.setField number value).getField number = some value := by
  rw [getField_setField ordered, if_pos rfl]

/-- A fresh message with one field. -/
theorem getField_single {descriptor : DescriptorProto} {pool : DescriptorPool} (number other : Int32)
    (value : V) : ((new descriptor pool : DynMsg V).setField number value).getField other =
      if other = number then some value else none := by
  rw [getField_setField new_ordered]
  split
  · rfl
  · split <;> rfl

end DynMsg

end TptProto.Reflect
