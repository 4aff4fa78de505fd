import TptProto.Json.Parse

/-! Which messages are given the JSON form of a well-known type. -/

namespace TptProto.Json

open TptProto.Foundation TptProto.Descriptor TptProto.Reflect

/-- The well-known types with a form of their own, by the name behind `google.protobuf.`. -/
def specialTypes : List (String × WellKnown) :=
  [("Timestamp", .timestamp), ("Duration", .duration), ("FieldMask", .fieldMask),
    ("Struct", .struct), ("Value", .value), ("ListValue", .listValue), ("Any", .any),
    ("Empty", .empty), ("DoubleValue", .wrapper), ("FloatValue", .wrapper),
    ("Int64Value", .wrapper), ("UInt64Value", .wrapper), ("Int32Value", .wrapper),
    ("UInt32Value", .wrapper), ("BoolValue", .wrapper), ("StringValue", .wrapper),
    ("BytesValue", .wrapper)]

/-- The name behind `google.protobuf.` of a full name, with or without its leading dot. -/
def googleName (fqn : String) : Option String :=
  stripPrefix "google.protobuf." (String.ofList (fqn.toList.dropWhile (· = '.')))

/-- The type that a full name denotes, with its form. -/
def namedForm (fqn : String) : Option (String × WellKnown) :=
  (googleName fqn).bind fun name => (specialTypes.lookup name).map fun form => (name, form)

/-- The name by which the dispatch chooses a form, with the form. -/
def chosenForm (pool : DescriptorPool) (desc : DescriptorProto) : Option (String × WellKnown) :=
  (wktName pool desc).bind fun name => (WellKnown.ofName name).map fun form => (name, form)

/-- In whatever order the messages of the pool are visited, each has the form that its own name
denotes, and no other. -/
def ByIdentity (pool : DescriptorPool) : Prop :=
  ∀ order, order.Perm pool.messages → ∀ entry ∈ pool.messages,
    chosenForm { pool with messages := order } entry.2 = namedForm entry.1

/-- The spellings that the list of wrappers has in common with no well-known type, and the types
that it misses for them. -/
def misspelled : List String := ["UInt64Value", "UInt32Value", "Uint64Value", "Uint32Value"]

/-- The form that the dispatch chooses for an entry with a given full name. -/
private def formOf (fqn : String) : Option (String × WellKnown) :=
  (googleName fqn).bind fun name => (WellKnown.ofName name).map fun form => (name, form)

private theorem ofName_eq_none {name : String}
    (unlisted : name ∉ specialTypes.map Prod.fst ++ misspelled) :
    WellKnown.ofName name = none ∧ specialTypes.lookup name = none := by
  constructor
  · simp only [specialTypes, misspelled, List.map_cons, List.map_nil, List.cons_append,
      List.nil_append, List.mem_cons, List.not_mem_nil, or_false, not_or] at unlisted
    simp [WellKnown.ofName, isWrapper, unlisted]
  · apply List.lookup_eq_none_iff.mpr
    intro entry member
    apply bne_iff_ne.mpr
    rintro rfl
    exact unlisted (List.mem_append_left _ (List.mem_map_of_mem member))

/-- The dispatch and the names agree but for the four spellings. -/
private theorem ofName_eq_iff (name : String) :
    WellKnown.ofName name = specialTypes.lookup name ↔ name ∉ misspelled := by
  by_cases listed : name ∈ specialTypes.map Prod.fst ++ misspelled
  · revert name
    decide
  · rw [(ofName_eq_none listed).1, (ofName_eq_none listed).2]
    simp only [true_iff]
    exact fun inside => listed (List.mem_append_right _ inside)

private theorem formOf_eq_iff (fqn : String) :
    formOf fqn = namedForm fqn ↔ ∀ name, googleName fqn = some name → name ∉ misspelled := by
  unfold formOf namedForm
  cases googleName fqn with
  | none => simp
  | some name =>
    simp only [Option.bind_some, Option.some.injEq, forall_eq']
    rw [← ofName_eq_iff]
    constructor
    · intro same
      have forms := congrArg (Option.map Prod.snd) same
      simpa [Option.map_map, Function.comp_def] using forms
    · intro same
      rw [same]

private theorem chosenForm_of_find {pool : DescriptorPool} {desc : DescriptorProto}
    {entry : String × DescriptorProto}
    (found : (pool.messages.find? fun other => other.2 = desc) = some entry) :
    chosenForm pool desc = formOf entry.1 := by
  have name : wktName pool desc = googleName entry.1 := by
    rw [wktName, DescriptorPool.fullNameByValue, found]
    rfl
  rw [chosenForm, name, formOf]

/-- An entry that is visited first is found for its descriptor. -/
private theorem chosenForm_first {pool : DescriptorPool} {entry : String × DescriptorProto}
    {rest : List (String × DescriptorProto)} :
    chosenForm { pool with messages := entry :: rest } entry.2 = formOf entry.1 :=
  chosenForm_of_find (by simp)

/-- The dispatch is by identity exactly when no type bears one of the four names, and types with
equal descriptors never have forms that differ. -/
theorem byIdentity_iff (pool : DescriptorPool) :
    ByIdentity pool ↔
      (∀ entry ∈ pool.messages, ∀ name, googleName entry.1 = some name → name ∉ misspelled) ∧
        ∀ first ∈ pool.messages, ∀ second ∈ pool.messages, first.2 = second.2 →
          namedForm first.1 = namedForm second.1 := by
  constructor
  · intro identity
    have first {entry : String × DescriptorProto} (member : entry ∈ pool.messages) :
        ∀ other ∈ pool.messages, entry.2 = other.2 → formOf entry.1 = namedForm other.1 := by
      intro other memberOther same
      have chosen := identity (entry :: pool.messages.erase entry)
        (List.perm_cons_erase member).symm other memberOther
      rwa [← same, chosenForm_first] at chosen
    constructor
    · intro entry member
      exact (formOf_eq_iff entry.1).mp (first member entry member rfl)
    · intro one member other memberOther same
      rw [← first member one member rfl]
      exact first member other memberOther same
  · rintro ⟨spelled, agree⟩ order perm entry member
    obtain ⟨found, isFound⟩ : ∃ found, (order.find? fun other => other.2 = entry.2) = some found := by
      apply Option.isSome_iff_exists.mp
      rw [List.find?_isSome]
      exact ⟨entry, perm.mem_iff.mpr member, by simp⟩
    have inside : found ∈ pool.messages := perm.mem_iff.mp (List.mem_of_find?_eq_some isFound)
    have same : found.2 = entry.2 := by simpa using List.find?_some isFound
    have chosen : chosenForm { pool with messages := order } entry.2 = formOf found.1 :=
      chosenForm_of_find isFound
    rw [chosen, (formOf_eq_iff found.1).mpr (spelled found inside)]
    exact agree found inside entry member same

/-- A pool with the wrapper of 32-bit unsigned integers. -/
def wrapperPool : DescriptorPool :=
  ⟨[("google.protobuf.UInt32Value",
    { name := some "UInt32Value"
      field := [{ name := some "value", number := some 1, label := some .optional
                  type := some .uint32 }] })], [], [], "proto3"⟩

/-- Its message is not recognized. -/
theorem not_byIdentity_uInt32Value : ¬ ByIdentity wrapperPool := by
  intro identity
  have chosen := identity wrapperPool.messages (.refl _) _ List.mem_cons_self
  revert chosen
  decide

end TptProto.Json
