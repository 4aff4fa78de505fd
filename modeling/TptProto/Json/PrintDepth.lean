import TptProto.Foundation.Limits
import TptProto.Json.StructForms
import TptProto.Json.Typed

/-! How deep the messages nest that are read from JSON, as their printing counts. -/

namespace TptProto.Json

open TptProto.Foundation TptProto.Core TptProto.Descriptor TptProto.Reflect

/-- A field of messages of a type. -/
structure HoldsType (pool : DescriptorPool) (field : FieldDescriptorProto) (sub : DescriptorProto) :
    Prop where
  isMessage : IsMessage (typeOf field)
  resolved : pool.lookupMessage (field.typeName.getD "") = some sub

theorem HoldsType.unique {pool : DescriptorPool} {field : FieldDescriptorProto}
    {sub sub' : DescriptorProto} (holds : HoldsType pool field sub)
    (holds' : HoldsType pool field sub') : sub = sub' :=
  Option.some.inj (holds.resolved.symm.trans holds'.resolved)

/-- What is given for a field contains a document of a message type. Printing is three levels
deeper there. -/
inductive FieldNests (pool : DescriptorPool) :
    FieldDescriptorProto → Json → Nat → DescriptorProto × Json → Prop where
  | single {field : FieldDescriptorProto} {jv : Json} {sub : DescriptorProto}
      (noMap : isMapField pool field = false) (holds : HoldsType pool field sub) :
      FieldNests pool field jv 3 (sub, jv)
  | entry {field kf vf : FieldDescriptorProto} {obj : List (String × Json)} {entry : String × Json}
      {sub : DescriptorProto} (isMap : isMapField pool field = true)
      (entryFields : mapEntryFields pool field = some (kf, vf)) (member : entry ∈ obj)
      (holds : HoldsType pool vf sub) : FieldNests pool field (.object obj) 3 (sub, entry.2)

/-- A document contains another one: in the field of a message, among the entries of a `Struct`,
among the items of a `ListValue`, or as the object or array that a `Value` is. -/
inductive Nests (pool : DescriptorPool) (opts : JsonOptions) :
    DescriptorProto × Json → Nat → DescriptorProto × Json → Prop where
  | field {desc : DescriptorProto} {map : List (String × Json)} {field : FieldDescriptorProto}
      {jv : Json} {deeper : Nat} {inner : DescriptorProto × Json}
      (plain : wellKnown? pool desc = none) (kept : Kept opts desc desc.field map field jv)
      (nests : FieldNests pool field jv deeper inner) : Nests pool opts (desc, .object map) deeper inner
  | struct {desc sub : DescriptorProto} {obj : List (String × Json)} {entry : String × Json}
      (known : wellKnown? pool desc = some .struct)
      (resolved : pool.lookupMessage ".google.protobuf.Value" = some sub) (member : entry ∈ obj) :
      Nests pool opts (desc, .object obj) 1 (sub, entry.2)
  | listValue {desc sub : DescriptorProto} {arr : List Json} {item : Json}
      (known : wellKnown? pool desc = some .listValue)
      (resolved : pool.lookupMessage ".google.protobuf.Value" = some sub) (member : item ∈ arr) :
      Nests pool opts (desc, .array arr) 1 (sub, item)
  | object {desc sub : DescriptorProto} {obj : List (String × Json)}
      (known : wellKnown? pool desc = some .value)
      (resolved : pool.lookupMessage ".google.protobuf.Struct" = some sub) :
      Nests pool opts (desc, .object obj) 1 (sub, .object obj)
  | array {desc sub : DescriptorProto} {arr : List Json}
      (known : wellKnown? pool desc = some .value)
      (resolved : pool.lookupMessage ".google.protobuf.ListValue" = some sub) :
      Nests pool opts (desc, .array arr) 1 (sub, .array arr)

/-- Field numbers are distinct, and an `Any` carries no message of a type in the pool. -/
structure Proper (pool : DescriptorPool) (source : DescriptorProto × Json) : Prop where
  numbered : ∀ f ∈ source.1.field, source.1.findFieldByNumber (f.number.getD 0) = some f
  packed : wellKnown? pool source.1 = some .any → ∀ obj typeUrl, source.2 = .object obj →
    SortedMap.get? obj "@type" = some (.string typeUrl) → anyType pool typeUrl = none

/-- The library has dates for the times that it reads, and for the first one. -/
structure Dated (libs : Libraries) : Prop where
  epoch : (libs.calendar 0).isSome = true
  parsed : ∀ s secs nanos, libs.parseRfc3339 s = .ok (secs, nanos) →
    (libs.calendar secs).isSome = true

section Scalars

variable (libs : Libraries) (opts : JsonOptions)

/-- Every scalar of its type is printed. -/
theorem scalarToJson_ok {t : FieldType} {s : ScalarValue} (typed : ScalarTyped t s) :
    ∃ json, scalarToJson libs t s opts = .ok json := by
  cases s with
  | i64 x =>
    have printed : ∃ json, (if opts.int64AsString then .ok (.string (toString x.toInt))
        else numberFromI64 x) = Outcome.ok json := by
      split
      · exact ⟨_, rfl⟩
      · have low := x.le_toInt
        have high := x.toInt_lt
        rw [numberFromI64, Number.fromF64, dif_pos (Ieee.finite_ofInt (by omega))]
        exact ⟨_, rfl⟩
    cases t <;> first | exact printed | exact (nomatch typed.1)
  | u64 x =>
    have printed : ∃ json, (if opts.int64AsString then .ok (.string (toString x.toNat))
        else numberFromU64 x) = Outcome.ok json := by
      split
      · exact ⟨_, rfl⟩
      · rw [numberFromU64, Number.fromF64, dif_pos (Ieee.finite_ofNat x.toNat_lt)]
        exact ⟨_, rfl⟩
    cases t <;> first | exact printed | exact (nomatch typed.1)
  | f64 x =>
    rcases typed with rfl | rfl
    · exact ⟨_, rfl⟩
    · exact ⟨_, rfl⟩
  | bool | string | bytes =>
    cases typed
    exact ⟨_, rfl⟩

/-- Every key that is read is printed. -/
private theorem mapKeyToJson_ok {kf : FieldDescriptorProto} {k : String} {key : Value}
    (read : jsonToMapKey kf k = .ok key) : ∃ text, mapKeyToJson kf key = .ok text := by
  unfold jsonToMapKey at read
  split at read
  all_goals rename_i type
  case h_13 => cases read
  all_goals
    first
    | cases read
      simp [mapKeyToJson, type]
    | obtain ⟨value, _, rfl⟩ := Outcome.map_eq_ok.mp read
      simp [mapKeyToJson, type]

end Scalars

section Values

variable (libs : Libraries) {pool : DescriptorPool} {opts : JsonOptions}
  {read : Nat → DescriptorProto → Json → JsonResult DynamicMessage}
  {print : Nat → DescriptorProto → DynamicMessage → JsonResult Json} {base : Nat}

/-- Below a depth, the printing of what is read is refused exactly if the limit is exceeded. -/
def PrintsWithin (pool : DescriptorPool) (opts : JsonOptions)
    (read : Nat → DescriptorProto → Json → JsonResult DynamicMessage)
    (print : Nat → DescriptorProto → DynamicMessage → JsonResult Json) (base : Nat) : Prop :=
  ∀ depth desc json msg, read depth desc json = .ok msg →
    Everywhere (Nests pool opts) (Proper pool) (desc, json) → ∀ deeper, base < deeper →
      (print deeper desc msg).Decides (depthExceeded opts)
        (Within (Nests pool opts) opts.maxDepth (desc, json) deeper)

variable (nested : PrintsWithin pool opts read print base)
include nested

/-- A single value, or the list that is read from an array. -/
private theorem valueToJson_decides {field : FieldDescriptorProto} {jv : Json} {value : Value}
    {depth deeper : Nat} (isRead : jsonToValue libs pool opts read field jv depth = .ok value)
    (proper : ∀ sub, HoldsType pool field sub → Everywhere (Nests pool opts) (Proper pool) (sub, jv))
    (below : base < deeper + 2) :
    (valueToJson libs pool opts print field value deeper).Decides (depthExceeded opts)
      (∀ sub, HoldsType pool field sub →
        Within (Nests pool opts) opts.maxDepth (sub, jv) (deeper + 2)) := by
  by_cases isMessage : IsMessage (typeOf field)
  · have body : (do
        let sub ← Outcome.ofOption (.unresolvedType (field.typeName.getD ""))
          (pool.lookupMessage (field.typeName.getD ""))
        let dm ← read (depth + 1) sub jv
        .ok (.message dm) : JsonResult Value) = .ok value := by
      unfold jsonToValue at isRead
      rcases isMessage with same | same <;> rw [same] at isRead <;> exact isRead
    obtain ⟨sub, resolved, body⟩ := Outcome.bind_eq_ok.mp body
    obtain ⟨dm, inner, same⟩ := Outcome.bind_eq_ok.mp body
    cases same
    have holds : HoldsType pool field sub := ⟨isMessage, Outcome.ofOption_eq_ok.mp resolved⟩
    have printed : valueToJson libs pool opts print field (.message dm) deeper =
        print (deeper + 2) sub dm := by
      unfold valueToJson scalarOrComplexToJson
      rcases isMessage with same | same <;> rw [same] <;> simp only [holds.resolved] <;> rfl
    rw [printed]
    refine (nested _ _ _ _ inner (proper sub holds) _ below).of_iff ?_
    constructor
    · intro within other holds'
      cases holds.unique holds'
      exact within
    · intro all
      exact all sub holds
  · refine .of_ok ?_ fun sub holds => (isMessage holds.isMessage).elim
    by_cases isEnum : typeOf field = .enum
    · have body : jsonToEnum pool field jv = .ok value := by
        unfold jsonToValue at isRead
        rw [isEnum] at isRead
        exact isRead
      obtain ⟨n, rfl⟩ := jsonToEnum_enum body
      unfold valueToJson scalarOrComplexToJson
      rw [isEnum]
      exact ⟨_, rfl⟩
    · have scalar : IsScalar (typeOf field) :=
        ⟨fun same => isMessage (.inl same), fun same => isMessage (.inr same), isEnum⟩
      have each {s : ScalarValue} (typed : ScalarTyped (typeOf field) s) (level : Nat) :
          ∃ json, scalarOrComplexToJson libs pool opts print field (typeOf field) (.scalar s) level =
            .ok json := by
        obtain ⟨json, printed⟩ := scalarToJson_ok libs opts typed
        refine ⟨json, ?_⟩
        unfold scalarOrComplexToJson
        split
        · exact (scalar.1 ‹_›).elim
        · exact (scalar.2.1 ‹_›).elim
        · exact (scalar.2.2 ‹_›).elim
        · exact printed
      by_cases array : ∃ arr, jv = .array arr
      · obtain ⟨arr, rfl⟩ := array
        rw [jsonToValue_array libs pool opts read scalar] at isRead
        obtain ⟨items, itemsRead, rfl⟩ := Outcome.map_eq_ok.mp isRead
        have all : (items.mapM fun it => scalarOrComplexToJson libs pool opts print field
            (typeOf field) it (deeper + 1)).Decides (depthExceeded opts) (∀ it ∈ arr, True) := by
          refine Outcome.decides_mapM_read itemsRead ?_
          intro it _ item here
          obtain ⟨s, isScalar, rfl⟩ := Outcome.map_eq_ok.mp here
          exact .of_ok (each (jsonToScalar_typed libs opts isScalar) _) trivial
        obtain ⟨jsons, printed⟩ := all.ok fun _ _ => trivial
        refine ⟨.array jsons, ?_⟩
        simp only [valueToJson, printed, Outcome.map_ok]
      · have single : ∀ arr, jv ≠ .array arr := fun arr same => array ⟨arr, same⟩
        rw [jsonToValue_scalar libs pool opts read scalar single] at isRead
        obtain ⟨s, isScalar, rfl⟩ := Outcome.map_eq_ok.mp isRead
        exact each (jsonToScalar_typed libs opts isScalar) (deeper + 1)

private theorem mapToJson_decides {kf vf : FieldDescriptorProto} {obj : List (String × Json)}
    {depth deeper : Nat} {entries : List (Value × Value)}
    (isRead : jsonToEntries libs pool opts read kf vf depth obj = .ok entries)
    (proper : ∀ entry ∈ obj, ∀ sub, HoldsType pool vf sub →
      Everywhere (Nests pool opts) (Proper pool) (sub, entry.2)) (below : base < deeper + 3) :
    (mapToJson libs pool opts print kf vf deeper entries).Decides (depthExceeded opts)
      (∀ entry ∈ obj, ∀ sub, HoldsType pool vf sub →
        Within (Nests pool opts) opts.maxDepth (sub, entry.2) (deeper + 3)) := by
  refine Outcome.decides_foldlM_read isRead ?_ []
  intro out source inside entry here
  obtain ⟨key, isKey, here⟩ := Outcome.bind_eq_ok.mp here
  obtain ⟨value, isValue, same⟩ := Outcome.bind_eq_ok.mp here
  cases same
  obtain ⟨text, printed⟩ := mapKeyToJson_ok isKey
  simp only [printed, Outcome.ok_bind]
  refine (valueToJson_decides libs nested isValue (proper source inside) below).bind ?_
  intro json
  exact ⟨_, rfl⟩

/-- The value of a field that is kept. -/
private theorem fieldToJson_decides {field : FieldDescriptorProto} {jv : Json} {depth deeper : Nat}
    {value : Value} (isRead : jsonToField libs pool opts read field jv depth = .ok value)
    (proper : ∀ levels inner, FieldNests pool field jv levels inner →
      Everywhere (Nests pool opts) (Proper pool) inner) (below : base ≤ deeper) :
    (fieldToJson libs pool opts print field (some value) deeper).Decides (depthExceeded opts)
      (∀ levels inner, FieldNests pool field jv levels inner →
        Within (Nests pool opts) opts.maxDepth inner (deeper + levels)) := by
  unfold jsonToField at isRead
  unfold fieldToJson
  cases isMap : isMapField pool field with
  | true =>
    rw [isMap, if_pos rfl] at isRead
    rw [if_pos rfl]
    split at isRead
    · cases isRead
    · rename_i kf vf entryFields
      split at isRead
      · rename_i obj
        obtain ⟨entries, entriesRead, rfl⟩ := Outcome.map_eq_ok.mp isRead
        simp only [entryFields]
        refine Outcome.Decides.map (Outcome.Decides.of_iff
          (mapToJson_decides libs nested entriesRead ?_ (by omega)) ?_) _
        · intro entry member sub holds
          exact proper _ _ (.entry isMap entryFields member holds)
        · constructor
          · intro all levels inner nests
            cases nests with
            | single noMap => rw [isMap] at noMap; cases noMap
            | entry _ entryFields' member holds =>
              cases entryFields.symm.trans entryFields'
              exact all _ member _ holds
          · intro all entry member sub holds
            exact all _ _ (.entry isMap entryFields member holds)
      · cases isRead
  | false =>
    rw [isMap, if_neg Bool.false_ne_true] at isRead
    rw [if_neg Bool.false_ne_true]
    refine Outcome.Decides.map (Outcome.Decides.of_iff
      (valueToJson_decides libs nested isRead ?_ (by omega)) ?_) _
    · intro sub holds
      exact proper _ _ (.single isMap holds)
    · constructor
      · intro all levels inner nests
        cases nests with
        | single _ holds => exact all _ holds
        | entry isMap' => rw [isMap] at isMap'; cases isMap'
      · intro all sub holds
        exact all _ _ (.single isMap holds)

end Values

section Forms

variable (libs : Libraries) {pool : DescriptorPool} {opts : JsonOptions} {desc : DescriptorProto}
  {json : Json} {msg : DynamicMessage} {form : WellKnown}

/-- Only three of the special forms contain further documents. -/
private theorem nests_known (known : wellKnown? pool desc = some form) {levels : Nat}
    {inner : DescriptorProto × Json} (nests : Nests pool opts (desc, json) levels inner) :
    form = .struct ∨ form = .listValue ∨ form = .value := by
  cases nests with
  | field plain => rw [plain] at known; cases known
  | struct known' => cases known.symm.trans known'; exact .inl rfl
  | listValue known' => cases known.symm.trans known'; exact .inr (.inl rfl)
  | object known' => cases known.symm.trans known'; exact .inr (.inr rfl)
  | array known' => cases known.symm.trans known'; exact .inr (.inr rfl)

/-- A time that is read has a date. -/
private theorem timestampToJson_ok (dated : Dated libs)
    (isRead : timestampFromJson libs desc json = .ok msg) :
    ∃ text, timestampToJson libs msg = .ok text := by
  unfold timestampFromJson at isRead
  split at isRead
  · split at isRead
    · rename_i secs nanos parsed
      cases isRead
      have held : getI64 (secondsAndNanos desc secs nanos.toInt32.toInt64) 1 = some secs ∨
          getI64 (secondsAndNanos desc secs nanos.toInt32.toInt64) 1 = none := by
        unfold getI64 secondsAndNanos
        rw [DynMsg.getField_setField (DynMsg.setField_ordered DynMsg.new_ordered 1 _),
          if_neg (by decide), DynMsg.getField_single, if_pos rfl]
        cases displaces ((DynMsg.new desc noPool : DynamicMessage).setField 1
          (.scalar (.i64 secs))).descriptor 2 1 with
        | false => exact .inl rfl
        | true => exact .inr rfl
      have onCalendar : (libs.calendar
          ((getI64 (secondsAndNanos desc secs nanos.toInt32.toInt64) 1).getD 0)).isSome = true := by
        rcases held with here | here
        · rw [here]
          exact dated.parsed _ _ _ parsed
        · rw [here]
          exact dated.epoch
      obtain ⟨base, found⟩ := Option.isSome_iff_exists.mp onCalendar
      unfold timestampToJson
      simp only [found, Outcome.ofOption_some, Outcome.ok_bind]
      exact ⟨_, rfl⟩
    · cases isRead
  · cases isRead

private theorem scalarJson_i64 (t : FieldType) (x : Int64) :
    scalarJson libs t (.i64 x) = .ok (.number (.fromI64 x)) := by
  cases t <;> rfl

/-- A wrapper that is read is printed. -/
private theorem wrapperToJson_ok (isRead : wrapperFromJson libs desc json = .ok msg) :
    ∃ text, wrapperToJson libs desc msg = .ok text := by
  obtain ⟨s, isScalar, same⟩ := Outcome.bind_eq_ok.mp isRead
  cases same
  unfold wrapperToJson
  rw [DynMsg.getField_single, if_pos rfl]
  simp only
  generalize (fieldType desc 1).getD .string = t at isScalar ⊢
  unfold wrappedScalar at isScalar
  split at isScalar
  · cases isScalar
    exact ⟨_, rfl⟩
  · obtain ⟨bytes, _, rfl⟩ := Outcome.map_eq_ok.mp isScalar
    exact ⟨_, rfl⟩
  · cases isScalar
    exact ⟨_, rfl⟩
  · cases isScalar
    simp [scalarJson, Number.fromF64_asF64]
  · cases isScalar
    simp [scalarJson, Number.fromF64_asF64]
  · cases isScalar
    exact ⟨_, scalarJson_i64 libs _ _⟩
  · cases isScalar

end Forms

section NestedForms

variable {pool : DescriptorPool} {opts : JsonOptions} {desc : DescriptorProto} {json : Json}
  {msg : DynamicMessage} {read : Nat → DescriptorProto → Json → JsonResult DynamicMessage}
  {print : Nat → DescriptorProto → DynamicMessage → JsonResult Json} {base depth deeper : Nat}

/-- One entry of a struct is inserted. -/
def addEntry (pool : DescriptorPool)
    (print : Nat → DescriptorProto → DynamicMessage → JsonResult Json) (depth : Nat)
    (out : List (String × Json)) : Value × Value → JsonResult (List (String × Json))
  | (.scalar (.string key), v) => do
    let json ← nestedToJson pool print depth v
    .ok (SortedMap.insert out key json)
  | _ => .ok out

theorem structEntries_eq (entries : List (Value × Value)) (out : List (String × Json)) :
    structEntries pool print depth entries out = entries.foldlM (addEntry pool print depth) out := by
  induction entries generalizing out with
  | nil => rfl
  | cons entry rest inductionHypothesis =>
    obtain ⟨key, v⟩ := entry
    rw [List.foldlM_cons]
    cases key with
    | scalar s =>
      cases s with
      | string text =>
        simp only [structEntries, addEntry, bind_assoc, Outcome.ok_bind, inductionHypothesis]
      | _ => simp only [structEntries, addEntry, Outcome.ok_bind, inductionHypothesis]
    | _ => simp only [structEntries, addEntry, Outcome.ok_bind, inductionHypothesis]

/-- The contained documents are within the limit. -/
def Fits (pool : DescriptorPool) (opts : JsonOptions) (desc : DescriptorProto) (json : Json)
    (deeper : Nat) : Prop :=
  ∀ levels inner, Nests pool opts (desc, json) levels inner →
    Within (Nests pool opts) opts.maxDepth inner (deeper + levels)

variable (nested : PrintsWithin pool opts read print base)
include nested

/-- A `Value` in a struct or a list, if the pool has the type. -/
private theorem nestedToJson_decides {v : Json} {inner : DynamicMessage}
    (isRead : nestedFromJson pool read depth v = .ok inner)
    (proper : ∀ sub, pool.lookupMessage ".google.protobuf.Value" = some sub →
      Everywhere (Nests pool opts) (Proper pool) (sub, v)) (below : base ≤ deeper) :
    (nestedToJson pool print deeper (.message inner)).Decides (depthExceeded opts)
      (∀ sub, pool.lookupMessage ".google.protobuf.Value" = some sub →
        Within (Nests pool opts) opts.maxDepth (sub, v) (deeper + 1)) := by
  unfold nestedFromJson at isRead
  unfold nestedToJson
  cases resolved : pool.lookupMessage ".google.protobuf.Value" with
  | none => exact .of_ok ⟨_, rfl⟩ nofun
  | some d =>
    rw [resolved] at isRead
    refine (nested _ _ _ _ isRead (proper d resolved) (deeper + 1) (by omega)).of_iff ?_
    constructor
    · rintro within _ ⟨⟩
      exact within
    · intro all
      exact all d rfl

private theorem structToJson_decides (known : wellKnown? pool desc = some .struct)
    (isRead : structFromJson pool read depth desc json = .ok msg)
    (proper : Everywhere (Nests pool opts) (Proper pool) (desc, json)) (below : base ≤ deeper) :
    (structToJson pool print deeper msg).Decides (depthExceeded opts)
      (Fits pool opts desc json deeper) := by
  unfold structFromJson at isRead
  split at isRead
  · rename_i obj
    obtain ⟨entries, entriesRead, same⟩ := Outcome.bind_eq_ok.mp isRead
    cases same
    unfold structToJson
    rw [DynMsg.getField_single, if_pos rfl]
    simp only [structEntries_eq]
    have decided : (entries.foldlM (addEntry pool print deeper) []).Decides (depthExceeded opts)
        (∀ entry ∈ obj, ∀ sub, pool.lookupMessage ".google.protobuf.Value" = some sub →
          Within (Nests pool opts) opts.maxDepth (sub, entry.2) (deeper + 1)) := by
      refine Outcome.decides_foldlM_read entriesRead ?_ []
      intro out entry member part here
      obtain ⟨inner, innerRead, same⟩ := Outcome.bind_eq_ok.mp here
      cases same
      refine (nestedToJson_decides nested innerRead ?_ below).bind fun _ => ⟨_, rfl⟩
      intro sub resolved
      exact proper.opens (.struct known resolved member)
    refine (decided.of_iff ?_).map _
    constructor
    · intro all levels inner nests
      cases nests with
      | field plain => rw [plain] at known; cases known
      | struct _ resolved member => exact all _ member _ resolved
      | object known' => cases known.symm.trans known'
    · intro all entry member sub resolved
      exact all _ _ (.struct known resolved member)
  · cases isRead

private theorem listValueToJson_decides (known : wellKnown? pool desc = some .listValue)
    (isRead : listValueFromJson pool read depth desc json = .ok msg)
    (proper : Everywhere (Nests pool opts) (Proper pool) (desc, json)) (below : base ≤ deeper) :
    (listValueToJson pool print deeper msg).Decides (depthExceeded opts)
      (Fits pool opts desc json deeper) := by
  unfold listValueFromJson at isRead
  split at isRead
  · rename_i arr
    obtain ⟨items, itemsRead, same⟩ := Outcome.bind_eq_ok.mp isRead
    cases same
    unfold listValueToJson
    rw [DynMsg.getField_single, if_pos rfl]
    have decided : (items.mapM (nestedToJson pool print deeper)).Decides (depthExceeded opts)
        (∀ item ∈ arr, ∀ sub, pool.lookupMessage ".google.protobuf.Value" = some sub →
          Within (Nests pool opts) opts.maxDepth (sub, item) (deeper + 1)) := by
      refine Outcome.decides_mapM_read itemsRead ?_
      intro item member part here
      obtain ⟨inner, innerRead, rfl⟩ := Outcome.map_eq_ok.mp here
      refine nestedToJson_decides nested innerRead ?_ below
      intro sub resolved
      exact proper.opens (.listValue known resolved member)
    refine (decided.of_iff ?_).map _
    constructor
    · intro all levels inner nests
      cases nests with
      | listValue _ resolved member => exact all _ member _ resolved
      | array known' => cases known.symm.trans known'
    · intro all item member sub resolved
      exact all _ _ (.listValue known resolved member)
  · cases isRead

/-- The struct or list that a `Value` is. -/
private theorem namedToJson_decides {name : String} {inner : DynamicMessage}
    (isRead : namedFromJson pool read depth json name = .ok inner)
    (proper : ∀ sub, pool.lookupMessage name = some sub →
      Everywhere (Nests pool opts) (Proper pool) (sub, json)) (below : base ≤ deeper) :
    (namedToJson pool print deeper name inner).Decides (depthExceeded opts)
      (∀ sub, pool.lookupMessage name = some sub →
        Within (Nests pool opts) opts.maxDepth (sub, json) (deeper + 1)) := by
  obtain ⟨d, resolved, isRead⟩ := Outcome.bind_eq_ok.mp isRead
  replace resolved := Outcome.ofOption_eq_ok.mp resolved
  unfold namedToJson
  rw [resolved]
  refine (nested _ _ _ _ isRead (proper d resolved) (deeper + 1) (by omega)).of_iff ?_
  constructor
  · rintro within _ ⟨⟩
    exact within
  · intro all
    exact all d rfl

private theorem valueToJson_form_decides (known : wellKnown? pool desc = some .value)
    (isRead : valueFromJson pool read depth desc json = .ok msg)
    (proper : Everywhere (Nests pool opts) (Proper pool) (desc, json)) (below : base ≤ deeper) :
    (WellKnown.valueToJson pool print deeper msg).Decides (depthExceeded opts)
      (Fits pool opts desc json deeper) := by
  unfold valueFromJson at isRead
  cases json with
  | null =>
    cases isRead
    refine .of_ok ⟨.null, ?_⟩ (by rintro _ _ ⟨⟩)
    simp [WellKnown.valueToJson, getI64, DynMsg.getField_single]
  | bool b =>
    cases isRead
    refine .of_ok ⟨.bool b, ?_⟩ (by rintro _ _ ⟨⟩)
    simp [WellKnown.valueToJson, getI64, getF64, getStr, getBool, DynMsg.getField_single]
  | number n =>
    cases isRead
    refine .of_ok ⟨.number (.float n.asF64 n.finite_asF64), ?_⟩ (by rintro _ _ ⟨⟩)
    simp [WellKnown.valueToJson, getI64, getF64, DynMsg.getField_single, Number.fromF64_asF64]
  | string s =>
    cases isRead
    refine .of_ok ⟨.string s, ?_⟩ (by rintro _ _ ⟨⟩)
    simp [WellKnown.valueToJson, getI64, getF64, getStr, DynMsg.getField_single]
  | object obj =>
    obtain ⟨inner, innerRead, same⟩ := Outcome.bind_eq_ok.mp isRead
    cases same
    have printed : WellKnown.valueToJson pool print deeper
        ((DynMsg.new desc pool).setField 5 (.message inner)) =
          namedToJson pool print deeper ".google.protobuf.Struct" inner := by
      simp [WellKnown.valueToJson, getI64, getF64, getStr, getBool, getMsg, DynMsg.getField_single]
    rw [printed]
    refine (namedToJson_decides nested innerRead (fun sub resolved =>
      proper.opens (.object known resolved)) below).of_iff ?_
    constructor
    · intro all levels inner nests
      cases nests with
      | field plain => rw [plain] at known; cases known
      | struct known' => cases known.symm.trans known'
      | object _ resolved => exact all _ resolved
    · intro all sub resolved
      exact all _ _ (.object known resolved)
  | array arr =>
    obtain ⟨inner, innerRead, same⟩ := Outcome.bind_eq_ok.mp isRead
    cases same
    have printed : WellKnown.valueToJson pool print deeper
        ((DynMsg.new desc pool).setField 6 (.message inner)) =
          namedToJson pool print deeper ".google.protobuf.ListValue" inner := by
      simp [WellKnown.valueToJson, getI64, getF64, getStr, getBool, getMsg, DynMsg.getField_single]
    rw [printed]
    refine (namedToJson_decides nested innerRead (fun sub resolved =>
      proper.opens (.array known resolved)) below).of_iff ?_
    constructor
    · intro all levels inner nests
      cases nests with
      | listValue known' => cases known.symm.trans known'
      | array _ resolved => exact all _ resolved
    · intro all sub resolved
      exact all _ _ (.array known resolved)

end NestedForms

section Run

variable (libs : Libraries) {pool : DescriptorPool} {opts : JsonOptions} {desc : DescriptorProto}
  {json : Json} {msg : DynamicMessage}
  {read : Nat → DescriptorProto → Json → JsonResult DynamicMessage}
  {print : Nat → DescriptorProto → DynamicMessage → JsonResult Json} {base depth deeper : Nat}

/-- A message without a special form is printed as the object of its fields. -/
theorem messageBody_plain (plain : wellKnown? pool desc = none) :
    messageBody libs pool opts print deeper desc msg =
      (fieldsToJson libs pool opts print msg deeper desc.field).map .object := by
  unfold messageBody wellKnownToJson
  rw [plain]
  rfl

/-- An `Any` whose type is not in the pool is printed with its bytes. -/
private theorem anyToJson_ok (known : wellKnown? pool desc = some .any)
    (isRead : anyFromJson libs pool read depth desc json = .ok msg)
    (proper : Proper pool (desc, json)) : ∃ out, anyToJson libs pool print deeper msg = .ok out := by
  have unpacked (held : DynamicMessage) (absent : anyType pool ((getStr held 1).getD "") = none) :
      ∃ out, anyToJson libs pool print deeper held = .ok out := by
    unfold anyToJson
    simp only [absent]
    exact ⟨_, rfl⟩
  unfold anyFromJson at isRead
  split at isRead
  · rename_i obj
    split at isRead
    · rename_i typeUrl typed
      have absent := proper.packed known obj typeUrl rfl typed
      simp only [absent] at isRead
      split at isRead
      · obtain ⟨bytes, _, same⟩ := Outcome.bind_eq_ok.mp isRead
        cases same
        refine unpacked _ ?_
        unfold getStr
        rw [DynMsg.getField_setField (DynMsg.setField_ordered DynMsg.new_ordered 1 _),
          if_neg (by decide), DynMsg.getField_single, if_pos rfl]
        cases displaces ((DynMsg.new desc pool : DynamicMessage).setField 1
          (.scalar (.string typeUrl))).descriptor 2 1 with
        | false => exact absent
        | true => rfl
      · cases isRead
        refine unpacked _ ?_
        unfold getStr
        rw [DynMsg.getField_single, if_pos rfl]
        exact absent
    · cases isRead
  · cases isRead

/-- A field that is not set is never refused. -/
theorem fieldToJson_unset (pool : DescriptorPool) (opts : JsonOptions)
    (print : Nat → DescriptorProto → DynamicMessage → JsonResult Json)
    (field : FieldDescriptorProto) (deeper : Nat) :
    ∃ added, fieldToJson libs pool opts print field none deeper = .ok added := by
  unfold fieldToJson
  split
  · exact ⟨_, rfl⟩
  · exact ⟨_, rfl⟩

variable (nested : PrintsWithin pool opts read print base)
include nested

/-- The fields of a message without a special form. -/
private theorem fieldsToJson_decides {map : List (String × Json)}
    (plain : wellKnown? pool desc = none)
    (folded : desc.field.foldlM (jsonToFieldStep libs pool opts read map depth)
      (DynMsg.new desc pool) = .ok msg)
    (proper : Everywhere (Nests pool opts) (Proper pool) (desc, .object map))
    (below : base ≤ deeper) :
    (fieldsToJson libs pool opts print msg deeper desc.field).Decides (depthExceeded opts)
      (Fits pool opts desc (.object map) deeper) := by
  obtain ⟨_, _, held⟩ := fold_getField libs pool read folded DynMsg.new_ordered
  have holds (number : Int32) (value : Value) : msg.getField number = some value ↔
      ∃ field jv, Kept opts desc desc.field map field jv ∧ field.number.getD 0 = number ∧
        jsonToField libs pool opts read field jv depth = .ok value := by
    rw [held]
    constructor
    · rintro (kept | ⟨here, _⟩)
      · exact kept
      · cases here
    · exact .inl
  have decided : (fieldsToJson libs pool opts print msg deeper desc.field).Decides
      (depthExceeded opts) (∀ field ∈ desc.field, ∀ jv, Kept opts desc desc.field map field jv →
        ∀ levels inner, FieldNests pool field jv levels inner →
          Within (Nests pool opts) opts.maxDepth inner (deeper + levels)) := by
    refine Outcome.decides_foldlM ?_ []
    intro out field inside
    by_cases extends' : field.extendee.isSome = true
    · rw [if_pos extends']
      refine .of_ok ⟨out, rfl⟩ ?_
      intro jv kept
      have absent := kept.member
      rw [memberOf, if_pos extends'] at absent
      cases absent
    · rw [if_neg extends']
      by_cases given : ∃ jv, Kept opts desc desc.field map field jv
      · obtain ⟨jv, kept⟩ := given
        obtain ⟨value, isRead⟩ := fold_reads libs pool read folded inside kept.member kept.present
        rw [(holds _ value).mpr ⟨field, jv, kept, rfl, isRead⟩]
        refine ((fieldToJson_decides libs nested isRead (fun levels inner nests =>
          proper.opens (.field plain kept nests)) below).of_iff ?_).bind ?_
        · constructor
          · intro all jv' kept' levels inner nests
            cases kept.member.symm.trans kept'.member
            exact all levels inner nests
          · intro all levels inner nests
            exact all jv kept levels inner nests
        · rintro (_ | json)
          · exact ⟨out, rfl⟩
          · exact ⟨_, rfl⟩
      · have unset : msg.getField (field.number.getD 0) = none := by
          cases here : msg.getField (field.number.getD 0) with
          | none => rfl
          | some value =>
            obtain ⟨other, jv, kept, same, _⟩ := (holds _ value).mp here
            obtain ⟨before, after, split, _⟩ := kept.last
            have found := proper.here.numbered other (split ▸ List.mem_append_cons_self)
            rw [same, proper.here.numbered field inside] at found
            cases found
            exact (given ⟨jv, kept⟩).elim
        rw [unset]
        refine .of_ok ?_ fun jv kept => (given ⟨jv, kept⟩).elim
        obtain ⟨added, printed⟩ := fieldToJson_unset libs pool opts print field deeper
        rw [printed]
        cases added with
        | none => exact ⟨out, rfl⟩
        | some json => exact ⟨_, rfl⟩
  refine decided.of_iff ?_
  constructor
  · intro all levels inner nests
    cases nests with
    | field _ kept nests =>
      obtain ⟨before, after, split, _⟩ := kept.last
      exact all _ (split ▸ List.mem_append_cons_self) _ kept levels inner nests
    | struct known => rw [plain] at known; cases known
    | object known => rw [plain] at known; cases known
  · intro all field inside jv kept levels inner nests
    exact all levels inner (.field plain kept nests)

/-- What is read at some depth is printed at another one. -/
private theorem messageBody_decides (dated : Dated libs)
    (isRead : parseBody libs pool opts read depth desc json = .ok msg)
    (proper : Everywhere (Nests pool opts) (Proper pool) (desc, json)) (below : base ≤ deeper) :
    (messageBody libs pool opts print deeper desc msg).Decides (depthExceeded opts)
      (Fits pool opts desc json deeper) := by
  obtain ⟨special, isSpecial, isRead⟩ := Outcome.bind_eq_ok.mp isRead
  have leaf {form : WellKnown} (known : wellKnown? pool desc = some form)
      (noStruct : form ≠ .struct) (noList : form ≠ .listValue) (noValue : form ≠ .value) :
      Fits pool opts desc json deeper := by
    intro levels inner nests
    rcases nests_known known nests with same | same | same
    · exact (noStruct same).elim
    · exact (noList same).elim
    · exact (noValue same).elim
  have formed (x : JsonResult Json)
      (form : wellKnownToJson libs pool print deeper desc msg = x.map some)
      (decided : x.Decides (depthExceeded opts) (Fits pool opts desc json deeper)) :
      (messageBody libs pool opts print deeper desc msg).Decides (depthExceeded opts)
        (Fits pool opts desc json deeper) := by
    have body : messageBody libs pool opts print deeper desc msg = x := by
      unfold messageBody
      rw [form]
      cases x <;> rfl
    rw [body]
    exact decided
  unfold wellKnownFromJson at isSpecial
  split at isSpecial <;> rename_i known
  · cases isSpecial
    simp only at isRead
    split at isRead
    · rename_i map
      obtain ⟨final, folded, isRead⟩ := Outcome.bind_eq_ok.mp isRead
      have same : final = msg := by
        split at isRead
        · split at isRead
          · exact Outcome.ok.inj isRead
          · cases isRead
        · exact Outcome.ok.inj isRead
      subst same
      rw [messageBody_plain libs known]
      exact (fieldsToJson_decides libs nested known folded proper below).map _
    · cases isRead
  · obtain ⟨dm, formRead, rfl⟩ := Outcome.map_eq_ok.mp isSpecial
    cases isRead
    refine formed _ (by rw [wellKnownToJson, known]) ?_
    exact .of_ok (timestampToJson_ok libs dated formRead) (leaf known nofun nofun nofun)
  · obtain ⟨dm, formRead, rfl⟩ := Outcome.map_eq_ok.mp isSpecial
    cases isRead
    refine formed (.ok (durationToJson msg)) (by rw [wellKnownToJson, known]; rfl) ?_
    exact .of_ok ⟨durationToJson msg, rfl⟩ (leaf known nofun nofun nofun)
  · obtain ⟨dm, formRead, rfl⟩ := Outcome.map_eq_ok.mp isSpecial
    cases isRead
    refine formed (.ok (fieldMaskToJson msg)) (by rw [wellKnownToJson, known]; rfl) ?_
    exact .of_ok ⟨fieldMaskToJson msg, rfl⟩ (leaf known nofun nofun nofun)
  · obtain ⟨dm, formRead, rfl⟩ := Outcome.map_eq_ok.mp isSpecial
    cases isRead
    refine formed _ (by rw [wellKnownToJson, known]) ?_
    exact structToJson_decides nested known formRead proper below
  · obtain ⟨dm, formRead, rfl⟩ := Outcome.map_eq_ok.mp isSpecial
    cases isRead
    refine formed _ (by rw [wellKnownToJson, known]) ?_
    exact valueToJson_form_decides nested known formRead proper below
  · obtain ⟨dm, formRead, rfl⟩ := Outcome.map_eq_ok.mp isSpecial
    cases isRead
    refine formed _ (by rw [wellKnownToJson, known]) ?_
    exact listValueToJson_decides nested known formRead proper below
  · obtain ⟨dm, formRead, rfl⟩ := Outcome.map_eq_ok.mp isSpecial
    cases isRead
    refine formed _ (by rw [wellKnownToJson, known]) ?_
    exact .of_ok (anyToJson_ok libs known formRead proper.here) (leaf known nofun nofun nofun)
  · refine formed (.ok (.object [])) (by rw [wellKnownToJson, known]; rfl) ?_
    exact .of_ok ⟨.object [], rfl⟩ (leaf known nofun nofun nofun)
  · obtain ⟨dm, formRead, rfl⟩ := Outcome.map_eq_ok.mp isSpecial
    cases isRead
    refine formed _ (by rw [wellKnownToJson, known]) ?_
    exact .of_ok (wrapperToJson_ok libs formRead) (leaf known nofun nofun nofun)

omit nested in
/-- What is read is printed, at any depth, or refused for its depth alone: exactly if a document
that it contains lies below the limit. -/
theorem messageToJsonImpl_decides (dated : Dated libs) (left : Nat)
    (isRead : jsonToMessageImpl libs pool opts left depth desc json = .ok msg)
    (proper : Everywhere (Nests pool opts) (Proper pool) (desc, json)) (levels : Nat)
    (enough : opts.maxDepth < deeper + levels) :
    (messageToJsonImpl libs pool opts levels deeper desc msg).Decides (depthExceeded opts)
      (Within (Nests pool opts) opts.maxDepth (desc, json) deeper) := by
  induction left generalizing depth desc json msg levels deeper with
  | zero => cases isRead
  | succ left inductionHypothesis =>
    cases levels with
    | zero =>
      constructor
      · intro within
        have inside := within.here
        omega
      · intro _
        rfl
    | succ levels =>
      unfold jsonToMessageImpl at isRead
      unfold messageToJsonImpl
      split at isRead
      · cases isRead
      · split
        · rename_i exceeded
          constructor
          · intro within
            have inside := within.here
            omega
          · intro _
            rfl
        · rename_i inside
          refine (messageBody_decides libs ?_ dated isRead proper (Nat.le_refl deeper)).of_iff ?_
          · intro depth desc json msg isRead proper further below
            exact inductionHypothesis isRead proper levels (by omega)
          · rw [within_iff]
            exact (and_iff_right (by omega)).symm

end Run

end TptProto.Json
