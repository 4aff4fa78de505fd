import TptProto.Json.Typed

/-! Messages that are read from JSON, special forms included, are typed exactly if the JSON value
has the declared shape. -/

namespace TptProto.Json

open TptProto.Foundation TptProto.Core TptProto.Descriptor TptProto.Reflect

section Settings

variable {pool other : DescriptorPool} {desc : DescriptorProto} {number : Int32} {value : Value}

/-- A message with one value is typed exactly if the value is. -/
private theorem typed_one {field : FieldDescriptorProto}
    (found : desc.findFieldByNumber number = some field) :
    Typed pool ((DynMsg.new desc other).setField number value) ↔ FieldTyped pool field value := by
  have ordered : (DynMsg.new desc other : DynamicMessage).Ordered := DynMsg.new_ordered
  constructor
  · intro typed
    cases typed with
    | mk _ typed =>
      exact typed number value field (DynMsg.getField_setField_self ordered number value) found
  · intro typed
    have only (at' : Int32) (held : Value)
        (here : ((DynMsg.new desc other).setField number value).getField at' = some held) :
        at' = number ∧ value = held := by
      rw [DynMsg.getField_setField ordered] at here
      split at here
      · rename_i same
        exact ⟨same, Option.some.inj here⟩
      · split at here <;> cases here
    refine .mk ?_ ?_
    · intro at' held here
      obtain ⟨rfl, rfl⟩ := only at' held here
      rw [DynMsg.setField_descriptor]
      show (desc.findFieldByNumber at').isSome = true
      rw [found]
      rfl
    · intro at' held field' here found'
      obtain ⟨rfl, rfl⟩ := only at' held here
      cases found.symm.trans found'
      exact typed

/-- Two values under numbers outside of oneofs. -/
private theorem typed_two {first second : FieldDescriptorProto} {next : Int32} {later : Value}
    (found : desc.findFieldByNumber number = some first)
    (foundNext : desc.findFieldByNumber next = some second) (free : second.oneofIndex = none)
    (typed : FieldTyped pool first value) (typedNext : FieldTyped pool second later) :
    Typed pool (((DynMsg.new desc other).setField number value).setField next later) := by
  have ordered : (DynMsg.new desc other : DynamicMessage).Ordered := DynMsg.new_ordered
  have apart (at' : Int32) : displaces desc next at' = false := by
    unfold displaces
    rw [foundNext, Option.bind_some, free]
  have before : Typed pool ((DynMsg.new desc other).setField number value) :=
    (typed_one found).mpr typed
  have held (at' : Int32) (inside : Value)
      (here : (((DynMsg.new desc other).setField number value).setField next later).getField at' =
        some inside) :
      (at' = next ∧ later = inside) ∨
        ((DynMsg.new desc other).setField number value).getField at' = some inside := by
    rw [DynMsg.getField_setField (DynMsg.setField_ordered ordered number value)] at here
    split at here
    · rename_i same
      exact .inl ⟨same, Option.some.inj here⟩
    · split at here
      · cases here
      · exact .inr here
  cases before with
  | mk inDesc each =>
    refine .mk ?_ ?_
    · intro at' inside here
      rcases held at' inside here with ⟨rfl, rfl⟩ | earlier
      · show (desc.findFieldByNumber at').isSome = true
        rw [foundNext]
        rfl
      · exact inDesc at' inside earlier
    · intro at' inside field' here found'
      rcases held at' inside here with ⟨rfl, rfl⟩ | earlier
      · cases foundNext.symm.trans found'
        exact typedNext
      · exact each at' inside field' earlier found'

/-- A singular field is typed exactly if its value is. -/
private theorem fieldTyped_single {field : FieldDescriptorProto}
    (singular : field.label ≠ some .repeated) :
    FieldTyped pool field value ↔ SingleTyped pool field value := by
  constructor
  · intro typed
    cases typed with
    | map isMap => exact (singular (repeated_of_isMapField isMap)).elim
    | list _ repeated => exact (singular repeated).elim
    | single _ typed => exact typed
  · exact .single singular

private theorem singleTyped_scalar {field : FieldDescriptorProto} {s : ScalarValue} :
    SingleTyped pool field (.scalar s) ↔ ScalarTyped (typeOf field) s := by
  constructor
  · intro typed
    cases typed with
    | scalar typed => exact typed
  · exact .scalar

end Settings

section Forms

variable {pool : DescriptorPool} {opts : JsonOptions} {desc : DescriptorProto} {json : Json}
  {msg : DynamicMessage} {form : WellKnown}

/-- What has the shape of a special form is standard. -/
private theorem Shaped.standard (known : wellKnown? pool desc = some form)
    (shaped : Shaped pool opts desc json) : Standard pool desc form := by
  cases shaped with
  | message plain => rw [plain] at known; cases known
  | faithful known' _ standard => cases known.symm.trans known'; exact standard
  | wrapper known' standard => cases known.symm.trans known'; exact standard
  | struct known' standard => cases known.symm.trans known'; exact standard
  | listValue known' standard => cases known.symm.trans known'; exact standard
  | value known' standard => cases known.symm.trans known'; exact standard

/-- A faithful form is read typed as soon as it is standard. -/
private theorem faithful_agrees (known : wellKnown? pool desc = some form) (faithful : Faithful form)
    (descriptor : msg.descriptor = desc) (typed : Standard pool desc form → Typed pool msg) :
    Agrees pool opts desc json msg where
  descriptor := descriptor
  typed shaped := typed (shaped.standard known)
  shaped _ regular _ := .faithful known faithful (regular.standard form known)

/-- Seconds and nanoseconds are typed if the nanoseconds are within 32 bits. -/
private theorem secondsAndNanos_typed {secs nanos : Int64}
    (small : -2 ^ 31 ≤ nanos.toInt ∧ nanos.toInt < 2 ^ 31)
    (standard : Declares desc 1 .int64 ∧ Declares desc 2 .int32) :
    Typed pool (secondsAndNanos desc secs nanos) := by
  obtain ⟨⟨first, found, singular, isLong, _⟩, second, foundNext, singularNext, isInt, free⟩ := standard
  refine typed_two found foundNext free (.single singular (.scalar ?_))
    (.single singularNext (.scalar ?_))
  · rw [isLong]
    exact ⟨rfl, representable_i64 secs⟩
  · rw [isInt]
    exact ⟨rfl, _, _, rfl, small.1, by omega⟩

private theorem timestamp_agrees (libs : Libraries) (known : wellKnown? pool desc = some .timestamp)
    (read : timestampFromJson libs desc json = .ok msg) : Agrees pool opts desc json msg := by
  unfold timestampFromJson at read
  split at read
  · split at read
    · rename_i secs nanos _
      cases read
      refine faithful_agrees known trivial rfl ?_
      intro standard
      refine secondsAndNanos_typed ?_ standard
      rw [Int32.toInt_toInt64]
      exact ⟨Int32.le_toInt _, Int32.toInt_lt _⟩
    · cases read
  · cases read

/-- Nine digits are less than the nanoseconds of a second. -/
private theorem durationNanos_bound {text : Option (List Char)} {n : Int}
    (read : durationNanos text = .ok n) : n.natAbs < 10 ^ 9 := by
  unfold durationNanos at read
  split at read
  · rename_i digits
    obtain ⟨numeral, _, _⟩ :=
      (Decimal.parseInt_eq_some (Nat.two_pow_pos 31)).mp (Outcome.ofOption_eq_ok.mp read)
    refine Decimal.numeral?_lt numeral ?_
    unfold nineDigits
    rw [String.toList_ofList, List.length_append, List.length_replicate, List.length_take]
    omega
  · cases read
    decide

private theorem signed_small {sign : Int64} {n : Int} (unit : sign = 1 ∨ sign = -1)
    (bound : n.natAbs < 10 ^ 9) :
    -2 ^ 31 ≤ (sign * Int64.ofInt n).toInt ∧ (sign * Int64.ofInt n).toInt < 2 ^ 31 := by
  rw [toInt_signed unit (by omega)]
  rcases unit with rfl | rfl
  · rw [show (1 : Int64).toInt = 1 from rfl]
    omega
  · rw [show (-1 : Int64).toInt = -1 from rfl]
    omega

private theorem duration_agrees (known : wellKnown? pool desc = some .duration)
    (read : durationFromJson desc json = .ok msg) : Agrees pool opts desc json msg := by
  unfold durationFromJson at read
  split at read
  · obtain ⟨trimmed, _, read⟩ := Outcome.bind_eq_ok.mp read
    simp only at read
    obtain ⟨secs, _, read⟩ := Outcome.bind_eq_ok.mp read
    obtain ⟨nanos, isNanos, read⟩ := Outcome.bind_eq_ok.mp read
    cases read
    refine faithful_agrees known trivial rfl ?_
    intro standard
    refine secondsAndNanos_typed ?_ standard
    refine signed_small ?_ (durationNanos_bound isNanos)
    split
    · exact .inr rfl
    · exact .inl rfl
  · cases read

private theorem fieldMask_agrees (known : wellKnown? pool desc = some .fieldMask)
    (read : fieldMaskFromJson desc json = .ok msg) : Agrees pool opts desc json msg := by
  unfold fieldMaskFromJson at read
  split at read
  · cases read
    refine faithful_agrees known trivial rfl ?_
    rintro ⟨field, found, repeated, isString⟩
    refine (typed_one found).mpr ?_
    have noMap : isMapField pool field = false := by
      unfold isMapField
      unfold typeOf at isString
      cases type : field.type with
      | none => simp
      | some t =>
        rw [type] at isString
        cases isString
        simp
    refine .list noMap repeated ?_
    intro item inside
    obtain ⟨path, _, rfl⟩ := List.mem_map.mp inside
    exact .scalar isString
  · cases read

private theorem wrapper_agrees (libs : Libraries) (known : wellKnown? pool desc = some .wrapper)
    (read : wrapperFromJson libs desc json = .ok msg) : Agrees pool opts desc json msg := by
  obtain ⟨s, isRead, same⟩ := Outcome.bind_eq_ok.mp read
  cases same
  have fits {t : FieldType} (scalar : IsScalar t) (wrapped : wrappedScalar libs t json = .ok s) :
      ScalarTyped t s ↔ WrapperShaped t json := by
    unfold wrappedScalar at wrapped
    split at wrapped
    · cases wrapped
      exact iff_of_true rfl trivial
    · obtain ⟨_, _, rfl⟩ := Outcome.map_eq_ok.mp wrapped
      exact iff_of_true rfl trivial
    · cases wrapped
      exact iff_of_true rfl trivial
    · cases wrapped
      exact iff_of_true (.inl rfl) (.inl rfl)
    · cases wrapped
      exact iff_of_true (.inr rfl) (.inr (.inl rfl))
    · rename_i notDouble notFloat
      cases wrapped
      constructor
      · exact fun typed => .inr (.inr typed)
      · rintro (double | float | typed)
        · exact (notDouble double).elim
        · exact (notFloat float).elim
        · exact typed
    · cases wrapped
  have declared {t : FieldType} {field : FieldDescriptorProto}
      (found : desc.findFieldByNumber 1 = some field) (type : typeOf field = t) :
      (fieldType desc 1).getD .string = t := by
    unfold fieldType
    rw [found]
    exact type
  constructor
  · rfl
  · intro shaped
    obtain ⟨t, scalar, field, found, singular, type, _⟩ := shaped.standard known
    rw [typed_one found, fieldTyped_single singular, singleTyped_scalar, type]
    have sameType := declared found type
    rw [sameType] at isRead
    refine (fits scalar isRead).mpr ?_
    rw [← sameType]
    cases shaped with
    | message plain => rw [plain] at known; cases known
    | faithful known' faithful => cases known.symm.trans known'; exact faithful.elim
    | wrapper _ _ fits => exact fits
    | struct known' => cases known.symm.trans known'
    | listValue known' => cases known.symm.trans known'
    | value known' => cases known.symm.trans known'
  · intro _ regular typed
    have standard := regular.standard _ known
    refine .wrapper known standard ?_
    obtain ⟨t, scalar, field, found, singular, type, _⟩ := standard
    rw [typed_one found, fieldTyped_single singular, singleTyped_scalar, type] at typed
    have sameType := declared found type
    rw [sameType] at isRead ⊢
    exact (fits scalar isRead).mp typed

private theorem empty_agrees (known : wellKnown? pool desc = some .empty) :
    Agrees pool opts desc json (DynMsg.new desc pool) := by
  refine faithful_agrees known trivial rfl fun _ => .mk ?_ ?_
  · intro number value held
    cases held
  · intro number value field held
    cases held

end Forms

section NestedForms

variable {pool : DescriptorPool} {opts : JsonOptions} {desc : DescriptorProto} {json : Json}
  {msg : DynamicMessage} {recurse : Nat → DescriptorProto → Json → JsonResult DynamicMessage}
  (nested : ∀ depth desc json msg, recurse depth desc json = .ok msg →
    Agrees pool opts desc json msg)

private theorem any_agrees (libs : Libraries) {depth : Nat}
    (known : wellKnown? pool desc = some .any)
    (read : anyFromJson libs pool recurse depth desc json = .ok msg) :
    Agrees pool opts desc json msg := by
  have url {text : String} (standard : Standard pool desc .any) :
      Typed pool ((DynMsg.new desc pool).setField 1 (.scalar (.string text))) := by
    obtain ⟨⟨first, found, singular, isString, _⟩, _⟩ := standard
    exact (typed_one found).mpr (.single singular (.scalar isString))
  have both {text : String} {bytes : List UInt8} (standard : Standard pool desc .any) :
      Typed pool (((DynMsg.new desc pool).setField 1 (.scalar (.string text))).setField 2
        (.scalar (.bytes bytes))) := by
    obtain ⟨⟨first, found, singular, isString, _⟩, second, foundNext, singularNext, isBytes, free⟩ :=
      standard
    exact typed_two found foundNext free (.single singular (.scalar isString))
      (.single singularNext (.scalar isBytes))
  unfold anyFromJson at read
  split at read
  · split at read
    · simp only at read
      split at read
      · obtain ⟨inner, _, read⟩ := Outcome.bind_eq_ok.mp read
        obtain ⟨bytes, _, read⟩ := Outcome.bind_eq_ok.mp read
        cases read
        exact faithful_agrees known trivial rfl both
      · split at read
        · obtain ⟨bytes, _, read⟩ := Outcome.bind_eq_ok.mp read
          cases read
          exact faithful_agrees known trivial rfl both
        · cases read
          exact faithful_agrees known trivial rfl url
    · cases read
  · cases read

include nested

/-- A nested `Value` that the pool has is typed exactly if its JSON value has the shape. -/
private theorem nestedFromJson_agrees {depth : Nat} {inner : DynamicMessage} {jv : Json}
    {field : FieldDescriptorProto} (resolves : Resolves pool field ".google.protobuf.Value")
    (read : nestedFromJson pool recurse depth jv = .ok inner) :
    ((∀ d, pool.lookupMessage ".google.protobuf.Value" = some d → Shaped pool opts d jv) →
        SingleTyped pool field (.message inner)) ∧
      (AllRegular pool → SingleTyped pool field (.message inner) →
        ∀ d, pool.lookupMessage ".google.protobuf.Value" = some d → Shaped pool opts d jv) := by
  obtain ⟨isMessage, inPool, same⟩ := resolves
  obtain ⟨d, resolved⟩ := Option.isSome_iff_exists.mp inPool
  unfold nestedFromJson at read
  rw [resolved] at read
  have agrees := nested _ _ _ _ read
  constructor
  · intro shaped
    refine .message (.inl isMessage) ?_ (agrees.typed (shaped d resolved))
    rw [same, resolved, agrees.descriptor]
  · intro regular typed d' resolved'
    cases resolved.symm.trans resolved'
    obtain ⟨entry, member, sameDesc⟩ := mem_of_lookupMessage resolved
    cases typed with
    | message _ _ typed => exact agrees.shaped regular (sameDesc ▸ regular entry member) typed

private theorem struct_agrees {depth : Nat} (known : wellKnown? pool desc = some .struct)
    (read : structFromJson pool recurse depth desc json = .ok msg) :
    Agrees pool opts desc json msg := by
  unfold structFromJson at read
  split at read
  · rename_i obj
    obtain ⟨entries, each, read⟩ := Outcome.bind_eq_ok.mp read
    cases read
    obtain ⟨covered, origin⟩ := Outcome.mapM_eq_ok_mem each
    constructor
    · rfl
    · intro shaped
      obtain ⟨field, kf, vf, found, isMap, entryFields, isString, resolves⟩ := shaped.standard known
      refine (typed_one found).mpr (.map isMap entryFields ?_ ?_)
      · intro entry member
        obtain ⟨source, _, isRead⟩ := origin entry member
        obtain ⟨inner, _, same⟩ := Outcome.bind_eq_ok.mp isRead
        cases same
        exact ⟨_, rfl, isString⟩
      · intro entry member
        obtain ⟨source, inside, isRead⟩ := origin entry member
        obtain ⟨inner, isInner, same⟩ := Outcome.bind_eq_ok.mp isRead
        cases same
        refine (nestedFromJson_agrees nested resolves isInner).1 ?_
        cases shaped with
        | message plain => rw [plain] at known; cases known
        | faithful known' faithful => cases known.symm.trans known'; exact faithful.elim
        | wrapper known' => cases known.symm.trans known'
        | struct _ _ each => exact each source inside
        | value known' => cases known.symm.trans known'
    · intro regular regularHere typed
      have standard := regularHere.standard _ known
      refine .struct known standard ?_
      obtain ⟨field, kf, vf, found, isMap, entryFields, isString, resolves⟩ := standard
      intro source inside
      obtain ⟨entry, member, isRead⟩ := covered source inside
      obtain ⟨inner, isInner, same⟩ := Outcome.bind_eq_ok.mp isRead
      cases same
      refine (nestedFromJson_agrees nested resolves isInner).2 regular ?_
      cases (typed_one found).mp typed with
      | map _ entryFields' _ values =>
        cases entryFields.symm.trans entryFields'
        exact values _ member
      | single singular => exact (singular (repeated_of_isMapField isMap)).elim
  · cases read

private theorem listValue_agrees {depth : Nat} (known : wellKnown? pool desc = some .listValue)
    (read : listValueFromJson pool recurse depth desc json = .ok msg) :
    Agrees pool opts desc json msg := by
  unfold listValueFromJson at read
  split at read
  · rename_i arr
    obtain ⟨items, each, read⟩ := Outcome.bind_eq_ok.mp read
    cases read
    obtain ⟨covered, origin⟩ := Outcome.mapM_eq_ok_mem each
    constructor
    · rfl
    · intro shaped
      obtain ⟨field, found, repeated, noMap, resolves⟩ := shaped.standard known
      refine (typed_one found).mpr (.list noMap repeated ?_)
      intro item member
      obtain ⟨source, inside, isRead⟩ := origin item member
      obtain ⟨inner, isInner, rfl⟩ := Outcome.map_eq_ok.mp isRead
      refine (nestedFromJson_agrees nested resolves isInner).1 ?_
      cases shaped with
      | faithful known' faithful => cases known.symm.trans known'; exact faithful.elim
      | wrapper known' => cases known.symm.trans known'
      | listValue _ _ each => exact each source inside
      | value known' => cases known.symm.trans known'
    · intro regular regularHere typed
      have standard := regularHere.standard _ known
      refine .listValue known standard ?_
      obtain ⟨field, found, repeated, noMap, resolves⟩ := standard
      intro source inside
      obtain ⟨item, member, isRead⟩ := covered source inside
      obtain ⟨inner, isInner, rfl⟩ := Outcome.map_eq_ok.mp isRead
      refine (nestedFromJson_agrees nested resolves isInner).2 regular ?_
      cases (typed_one found).mp typed with
      | list _ _ each => exact each _ member
      | single singular => exact (singular repeated).elim
  · cases read

/-- A struct or list in a `Value`, in the field with its type. -/
private theorem namedFromJson_agrees {depth : Nat} {inner : DynamicMessage} {name : String}
    {number : Int32} {field : FieldDescriptorProto}
    (found : desc.findFieldByNumber number = some field) (singular : field.label ≠ some .repeated)
    (resolves : Resolves pool field name)
    (read : namedFromJson pool recurse depth json name = .ok inner) :
    ((∀ d, pool.lookupMessage name = some d → Shaped pool opts d json) →
        Typed pool ((DynMsg.new desc pool).setField number (.message inner))) ∧
      (AllRegular pool → Typed pool ((DynMsg.new desc pool).setField number (.message inner)) →
        ∀ d, pool.lookupMessage name = some d → Shaped pool opts d json) := by
  obtain ⟨isMessage, _, same⟩ := resolves
  obtain ⟨d, resolved, read⟩ := Outcome.bind_eq_ok.mp read
  replace resolved := Outcome.ofOption_eq_ok.mp resolved
  have agrees := nested _ _ _ _ read
  rw [typed_one found, fieldTyped_single singular]
  constructor
  · intro shaped
    refine .message (.inl isMessage) ?_ (agrees.typed (shaped d resolved))
    rw [same, resolved, agrees.descriptor]
  · intro regular typed d' resolved'
    cases resolved.symm.trans resolved'
    obtain ⟨entry, member, sameDesc⟩ := mem_of_lookupMessage resolved
    cases typed with
    | message _ _ typed => exact agrees.shaped regular (sameDesc ▸ regular entry member) typed

private theorem value_agrees {depth : Nat} (known : wellKnown? pool desc = some .value)
    (read : valueFromJson pool recurse depth desc json = .ok msg) :
    Agrees pool opts desc json msg := by
  have unshaped (shaped : Shaped pool opts desc json) : json ≠ .null ∧
      (∀ obj, json = .object obj → ∀ d, pool.lookupMessage ".google.protobuf.Struct" = some d →
        Shaped pool opts d json) ∧
      (∀ arr, json = .array arr → ∀ d, pool.lookupMessage ".google.protobuf.ListValue" = some d →
        Shaped pool opts d json) := by
    cases shaped with
    | message plain => rw [plain] at known; cases known
    | faithful known' faithful => cases known.symm.trans known'; exact faithful.elim
    | wrapper known' => cases known.symm.trans known'
    | struct known' => cases known.symm.trans known'
    | listValue known' => cases known.symm.trans known'
    | value _ _ notNull object array => exact ⟨notNull, object, array⟩
  have leaf {s : ScalarValue} {number : Int32} {t : FieldType} (typed : ScalarTyped t s)
      (declared : StandardValue pool desc → ∃ f, desc.findFieldByNumber number = some f ∧
        f.label ≠ some .repeated ∧ typeOf f = t)
      (notNull : json ≠ .null) (noObject : ∀ obj, json ≠ .object obj)
      (noArray : ∀ arr, json ≠ .array arr) :
      Agrees pool opts desc json ((DynMsg.new desc pool).setField number (.scalar s)) := by
    constructor
    · rfl
    · intro shaped
      obtain ⟨field, found, singular, type⟩ := declared (shaped.standard known)
      refine (typed_one found).mpr (.single singular (.scalar ?_))
      rw [type]
      exact typed
    · intro _ regular _
      exact .value known (regular.standard _ known) notNull
        (fun obj same => (noObject obj same).elim) fun arr same => (noArray arr same).elim
  unfold valueFromJson at read
  cases json with
  | null =>
    cases read
    constructor
    · rfl
    · intro shaped
      exact ((unshaped shaped).1 rfl).elim
    · intro _ regular typed
      obtain ⟨field, found, singular, isEnum⟩ := (regular.standard _ known).null
      rw [typed_one found, fieldTyped_single singular, singleTyped_scalar, isEnum] at typed
      cases typed.1
  | bool b =>
    cases read
    exact leaf (t := .bool) rfl StandardValue.bool nofun nofun nofun
  | number n =>
    cases read
    exact leaf (t := .double) (.inl rfl) StandardValue.number nofun nofun nofun
  | string s =>
    cases read
    exact leaf (t := .string) rfl StandardValue.string nofun nofun nofun
  | object obj =>
    obtain ⟨inner, isRead, read⟩ := Outcome.bind_eq_ok.mp read
    cases read
    constructor
    · rfl
    · intro shaped
      obtain ⟨field, found, singular, resolves⟩ := StandardValue.struct (shaped.standard known)
      exact (namedFromJson_agrees nested found singular resolves isRead).1
        ((unshaped shaped).2.1 obj rfl)
    · intro regular regularHere typed
      have standard : StandardValue pool desc := regularHere.standard _ known
      obtain ⟨field, found, singular, resolves⟩ := standard.struct
      refine .value known standard nofun (fun _ _ => ?_) nofun
      exact (namedFromJson_agrees nested found singular resolves isRead).2 regular typed
  | array arr =>
    obtain ⟨inner, isRead, read⟩ := Outcome.bind_eq_ok.mp read
    cases read
    constructor
    · rfl
    · intro shaped
      obtain ⟨field, found, singular, resolves⟩ := StandardValue.list (shaped.standard known)
      exact (namedFromJson_agrees nested found singular resolves isRead).1
        ((unshaped shaped).2.2 arr rfl)
    · intro regular regularHere typed
      have standard : StandardValue pool desc := regularHere.standard _ known
      obtain ⟨field, found, singular, resolves⟩ := standard.list
      refine .value known standard nofun nofun (fun _ _ => ?_)
      exact (namedFromJson_agrees nested found singular resolves isRead).2 regular typed

end NestedForms

section Run

variable (libs : Libraries) {pool : DescriptorPool} {opts : JsonOptions} {desc : DescriptorProto}
  {json : Json} {msg : DynamicMessage}

/-- The members of an object without a special form. -/
private theorem members_agree {recurse : Nat → DescriptorProto → Json → JsonResult DynamicMessage}
    (nested : ∀ depth desc json msg, recurse depth desc json = .ok msg →
      Agrees pool opts desc json msg) {map : List (String × Json)} {depth : Nat}
    (plain : wellKnown? pool desc = none)
    (folded : desc.field.foldlM (jsonToFieldStep libs pool opts recurse map depth)
      (DynMsg.new desc pool) = .ok msg) : Agrees pool opts desc (.object map) msg := by
  obtain ⟨descriptor, _, held⟩ := fold_getField libs pool recurse folded DynMsg.new_ordered
  have holds (number : Int32) (value : Value) : msg.getField number = some value ↔
      ∃ field jv, Kept opts desc desc.field map field jv ∧ field.number.getD 0 = number ∧
        jsonToField libs pool opts recurse field jv depth = .ok value := by
    rw [held]
    constructor
    · rintro (kept | ⟨here, _⟩)
      · exact kept
      · cases here
    · exact .inl
  constructor
  · exact descriptor
  · intro shaped
    cases shaped with
    | message _ found shaped =>
      refine .mk ?_ ?_
      · intro number value here
        obtain ⟨field, jv, kept, rfl, _⟩ := (holds number value).mp here
        rw [descriptor]
        show (desc.findFieldByNumber (field.number.getD 0)).isSome = true
        rw [found field jv kept]
        rfl
      · intro number value declared here isDeclared
        obtain ⟨field, jv, kept, rfl, read⟩ := (holds number value).mp here
        rw [descriptor] at isDeclared
        obtain rfl : field = declared := Option.some.inj ((found field jv kept).symm.trans isDeclared)
        exact (jsonToField_typed libs nested read).1 (shaped field jv kept)
    | faithful known => rw [plain] at known; cases known
    | wrapper known => rw [plain] at known; cases known
    | struct known => rw [plain] at known; cases known
    | value known => rw [plain] at known; cases known
  · intro regular regularHere typed
    have found (field : FieldDescriptorProto) (jv : Json)
        (kept : Kept opts desc desc.field map field jv) :
        desc.findFieldByNumber (field.number.getD 0) = some field := by
      obtain ⟨before, after, split, _⟩ := kept.last
      exact regularHere.numbered field (split ▸ List.mem_append_cons_self)
    refine .message plain found ?_
    intro field jv kept
    obtain ⟨before, after, split, _⟩ := kept.last
    obtain ⟨value, read⟩ := fold_reads libs pool recurse folded
      (split ▸ List.mem_append_cons_self) kept.member kept.present
    cases typed with
    | mk _ each =>
      have fieldTyped := each _ value field ((holds _ value).mpr ⟨field, jv, kept, rfl, read⟩)
        (by rw [descriptor]; exact found field jv kept)
      exact (jsonToField_typed libs nested read).2 regular fieldTyped

private theorem parseBody_agrees {recurse : Nat → DescriptorProto → Json → JsonResult DynamicMessage}
    (nested : ∀ depth desc json msg, recurse depth desc json = .ok msg →
      Agrees pool opts desc json msg) {depth : Nat}
    (read : parseBody libs pool opts recurse depth desc json = .ok msg) :
    Agrees pool opts desc json msg := by
  obtain ⟨special, isSpecial, read⟩ := Outcome.bind_eq_ok.mp read
  unfold wellKnownFromJson at isSpecial
  split at isSpecial <;> rename_i known
  · cases isSpecial
    simp only at read
    split at read
    · rename_i map
      obtain ⟨final, folded, read⟩ := Outcome.bind_eq_ok.mp read
      have same : final = msg := by
        split at read
        · split at read
          · exact Outcome.ok.inj read
          · cases read
        · exact Outcome.ok.inj read
      subst same
      exact members_agree libs nested known folded
    · cases read
  · obtain ⟨dm, isRead, rfl⟩ := Outcome.map_eq_ok.mp isSpecial
    cases read
    exact timestamp_agrees libs known isRead
  · obtain ⟨dm, isRead, rfl⟩ := Outcome.map_eq_ok.mp isSpecial
    cases read
    exact duration_agrees known isRead
  · obtain ⟨dm, isRead, rfl⟩ := Outcome.map_eq_ok.mp isSpecial
    cases read
    exact fieldMask_agrees known isRead
  · obtain ⟨dm, isRead, rfl⟩ := Outcome.map_eq_ok.mp isSpecial
    cases read
    exact struct_agrees nested known isRead
  · obtain ⟨dm, isRead, rfl⟩ := Outcome.map_eq_ok.mp isSpecial
    cases read
    exact value_agrees nested known isRead
  · obtain ⟨dm, isRead, rfl⟩ := Outcome.map_eq_ok.mp isSpecial
    cases read
    exact listValue_agrees nested known isRead
  · obtain ⟨dm, isRead, rfl⟩ := Outcome.map_eq_ok.mp isSpecial
    cases read
    exact any_agrees libs known isRead
  · cases isSpecial
    cases read
    exact empty_agrees known
  · obtain ⟨dm, isRead, rfl⟩ := Outcome.map_eq_ok.mp isSpecial
    cases read
    exact wrapper_agrees libs known isRead

/-- At every depth, a message that is read is typed exactly if its JSON value has the shape. -/
theorem jsonToMessageImpl_agrees (left depth : Nat)
    (read : jsonToMessageImpl libs pool opts left depth desc json = .ok msg) :
    Agrees pool opts desc json msg := by
  induction left generalizing depth desc json msg with
  | zero => cases read
  | succ left inductionHypothesis =>
    unfold jsonToMessageImpl at read
    split at read
    · cases read
    · exact parseBody_agrees libs (fun depth _ _ _ => inductionHypothesis depth) read

end Run

section Writing

/-- No scalar, enum or map entry of a message is refused when it is written. -/
structure Writable (pool : DescriptorPool) (msg : DynamicMessage) : Prop where
  single : ∀ number value field, msg.getField number = some value →
    msg.descriptor.findFieldByNumber number = some field → field.label ≠ some .repeated →
    ¬ IsMessage (typeOf field) → ∃ bytes, writeScalarValue (typeOf field) value = .ok bytes
  entry : ∀ number entries field kf vf, msg.getField number = some (.map entries) →
    msg.descriptor.findFieldByNumber number = some field →
    mapEntryFields pool field = some (kf, vf) → ∀ entry ∈ entries,
      (∃ bytes, writeScalarValue (typeOf kf) entry.1 = .ok bytes) ∧
        (¬ IsMessage (typeOf vf) → ∃ bytes, writeScalarValue (typeOf vf) entry.2 = .ok bytes)

private theorem writeScalarValue_scalar {t : FieldType} {s : ScalarValue} (typed : ScalarTyped t s) :
    ∃ bytes, writeScalarValue t (.scalar s) = .ok bytes := by
  cases s with
  | i64 x =>
    obtain ⟨signed, _⟩ := typed
    cases t <;> cases signed <;> exact ⟨_, rfl⟩
  | u64 x =>
    obtain ⟨unsigned, _⟩ := typed
    cases t <;> cases unsigned <;> exact ⟨_, rfl⟩
  | f64 bits =>
    rcases typed with rfl | rfl
    · exact ⟨_, rfl⟩
    · exact ⟨_, rfl⟩
  | bool b => cases typed; exact ⟨_, rfl⟩
  | string text => cases typed; exact ⟨_, rfl⟩
  | bytes b => cases typed; exact ⟨_, rfl⟩

private theorem writeScalarValue_single {pool : DescriptorPool} {field : FieldDescriptorProto}
    {value : Value} (typed : SingleTyped pool field value) (noMessage : ¬ IsMessage (typeOf field)) :
    ∃ bytes, writeScalarValue (typeOf field) value = .ok bytes := by
  cases typed with
  | scalar typed => exact writeScalarValue_scalar typed
  | enum isEnum =>
    rw [isEnum]
    exact ⟨_, rfl⟩
  | message isMessage => exact (noMessage isMessage).elim

theorem Typed.writable {pool : DescriptorPool} {msg : DynamicMessage} (typed : Typed pool msg) :
    Writable pool msg := by
  cases typed with
  | mk _ each =>
    constructor
    · intro number value field held found singular noMessage
      exact writeScalarValue_single
        ((fieldTyped_single singular).mp (each number value field held found)) noMessage
    · intro number entries field kf vf held found entryFields entry member
      cases each number _ field held found with
      | map _ entryFields' keys values =>
        cases entryFields.symm.trans entryFields'
        obtain ⟨s, isKey, keyTyped⟩ := keys entry member
        rw [isKey]
        exact ⟨writeScalarValue_scalar keyTyped, writeScalarValue_single (values entry member)⟩
      | single _ typed => cases typed

end Writing

/-- What is read is typed, and then written without a type mismatch, if the JSON value has the
declared shape at all depths; over regular descriptors only then. -/
theorem typed_iff_shaped (libs : Libraries) {pool : DescriptorPool} {opts : JsonOptions}
    {desc : DescriptorProto} {json : Json} {msg : DynamicMessage}
    (read : jsonToMessage libs pool opts desc json = .ok msg) :
    (Shaped pool opts desc json → Typed pool msg ∧ Writable pool msg) ∧
      (AllRegular pool → Regular pool desc → (Typed pool msg ↔ Shaped pool opts desc json)) := by
  have agrees := jsonToMessageImpl_agrees libs _ _ read
  constructor
  · intro shaped
    exact ⟨agrees.typed shaped, (agrees.typed shaped).writable⟩
  · intro all regular
    exact ⟨agrees.shaped all regular, agrees.typed⟩

/-- The count minus seven, given as a text. -/
theorem typed_count : ∃ msg,
    jsonToMessage sampleLibraries noPool {} countMessage (.object [("n", .string "-7")]) = .ok msg ∧
      Typed noPool msg ∧ Writable noPool msg := by
  obtain ⟨msg, read⟩ : ∃ msg, jsonToMessage sampleLibraries noPool {} countMessage
      (.object [("n", .string "-7")]) = .ok msg := ⟨_, rfl⟩
  refine ⟨msg, read, (typed_iff_shaped sampleLibraries read).1 (.message rfl ?_ ?_)⟩
  · intro field jv kept
    obtain ⟨before, after, split, _⟩ := kept.last
    have inside : field ∈ countMessage.field := split ▸ List.mem_append_cons_self
    rw [List.mem_singleton.mp inside]
    rfl
  · intro field jv kept
    obtain ⟨before, after, split, _⟩ := kept.last
    have inside : field ∈ countMessage.field := split ▸ List.mem_append_cons_self
    have same := List.mem_singleton.mp inside
    subst same
    have member : some (Json.string "-7") = some jv := kept.member
    cases member
    exact .single nofun (.scalar (by decide) nofun)

/-- A pool with the type of arbitrary values, cut down to the field for null. -/
def valuePool : DescriptorPool :=
  ⟨[("google.protobuf.Value",
    { name := some "Value"
      field := [{ name := some "null_value", number := some 1, label := some .optional
                  type := some .enum, typeName := some ".google.protobuf.NullValue" }] })],
    [], [], "proto3"⟩

/-- Null is read as an integer in an enum field, which cannot be written. -/
theorem not_typed_null : ∃ desc msg, valuePool.lookupMessage ".google.protobuf.Value" = some desc ∧
    jsonToMessage sampleLibraries valuePool {} desc .null = .ok msg ∧ ¬ Typed valuePool msg ∧
      msg.encode = .err (.typeMismatch "scalar encode") := by
  refine ⟨_, _, rfl, rfl, ?_, rfl⟩
  intro typed
  cases typed with
  | mk _ each =>
    cases each 1 _ _ rfl rfl with
    | single _ typed =>
      cases typed with
      | scalar typed => cases typed.1

end TptProto.Json
