import TptProto.Json.Parse
import TptProto.Reflect.Oneof

/-! JSON trees as structured values and back. -/

namespace TptProto.Json

open TptProto.Foundation TptProto.Core TptProto.Descriptor TptProto.Reflect

section Statement

mutual

/-- Every object of the tree has its keys once. -/
def Json.DistinctKeys : Json → Prop
  | .array items => DistinctItems items
  | .object entries => (entries.map Prod.fst).Nodup ∧ DistinctEntries entries
  | _ => True

def DistinctItems : List Json → Prop
  | [] => True
  | it :: rest => it.DistinctKeys ∧ DistinctItems rest

def DistinctEntries : List (String × Json) → Prop
  | [] => True
  | (_, v) :: rest => v.DistinctKeys ∧ DistinctEntries rest

end

mutual

/-- How many messages lie one in another below the `Value` of a tree. -/
def Json.valueDepth : Json → Nat
  | .array items => itemsDepth items + 1
  | .object entries => entriesDepth entries + 1
  | _ => 0

/-- The same for the `ListValue` of these items. -/
def itemsDepth : List Json → Nat
  | [] => 0
  | it :: rest => max (it.valueDepth + 1) (itemsDepth rest)

/-- The same for the `Struct` of these entries. -/
def entriesDepth : List (String × Json) → Nat
  | [] => 0
  | (_, v) :: rest => max (v.valueDepth + 1) (entriesDepth rest)

end

mutual

/-- The same tree, with numbers as doubles and objects as finite maps. -/
inductive Json.Same : Json → Json → Prop where
  | null : Json.Same .null .null
  | bool (b : Bool) : Json.Same (.bool b) (.bool b)
  | number {n m : Number} (same : n.asF64 = m.asF64) : Json.Same (.number n) (.number m)
  | string (s : String) : Json.Same (.string s) (.string s)
  | array {items items' : List Json} (same : SameItems items items') :
      Json.Same (.array items) (.array items')
  | object {entries listed entries' : List (String × Json)} (same : SameEntries entries listed)
      (reordered : listed.Perm entries') : Json.Same (.object entries) (.object entries')

inductive SameItems : List Json → List Json → Prop where
  | nil : SameItems [] []
  | cons {it it' : Json} {rest rest' : List Json} (head : Json.Same it it')
      (tail : SameItems rest rest') : SameItems (it :: rest) (it' :: rest')

inductive SameEntries : List (String × Json) → List (String × Json) → Prop where
  | nil : SameEntries [] []
  | cons {key : String} {v v' : Json} {rest rest' : List (String × Json)} (head : Json.Same v v')
      (tail : SameEntries rest rest') : SameEntries ((key, v) :: rest) ((key, v') :: rest')

end

/-- The pool holds the types of structured values, each under its name only. -/
structure HoldsStructs (pool : DescriptorPool) (valueDesc structDesc listDesc : DescriptorProto) :
    Prop where
  distinct : (pool.messages.map Prod.fst).Nodup ∧ (pool.messages.map Prod.snd).Nodup
  value : ("google.protobuf.Value", valueDesc) ∈ pool.messages
  struct : ("google.protobuf.Struct", structDesc) ∈ pool.messages
  list : ("google.protobuf.ListValue", listDesc) ∈ pool.messages

end Statement

section Numbers

theorem Number.finite_asF64 (n : Number) : Ieee.Finite n.asF64 := by
  cases n with
  | posInt value => exact Ieee.finite_ofNat value.toNat_lt
  | negInt value negative =>
    refine Ieee.finite_ofInt ?_
    have low := value.le_toInt
    have high := value.toInt_lt
    omega
  | float bits finite => exact finite

theorem Number.fromF64_asF64 (n : Number) : Number.fromF64 n.asF64 = some (.float n.asF64 n.finite_asF64) :=
  dif_pos n.finite_asF64

end Numbers

section Lookups

variable {pool : DescriptorPool} {valueDesc structDesc listDesc desc : DescriptorProto}

theorem fullNameByValue_of_mem (distinct : (pool.messages.map Prod.snd).Nodup) {name : String}
    (member : (name, desc) ∈ pool.messages) : pool.fullNameByValue desc = some name := by
  have found : (pool.messages.find? fun entry => entry.2 = desc).isSome :=
    List.find?_isSome.mpr ⟨_, member, by simp⟩
  obtain ⟨entry, first⟩ := Option.isSome_iff_exists.mp found
  have same : entry.2 = desc := by simpa using List.find?_some first
  have swapped : ((pool.messages.map fun entry => (entry.2, entry.1)).map Prod.fst).Nodup := by
    simpa [Function.comp_def] using distinct
  have only : entry.1 = name := SortedMap.value_unique swapped
    (List.mem_map.mpr ⟨entry, List.mem_of_find?_eq_some first, by rw [same]⟩)
    (List.mem_map.mpr ⟨_, member, rfl⟩)
  rw [DescriptorPool.fullNameByValue, first, ← only]
  rfl

theorem lookupMessage_of_mem (distinct : (pool.messages.map Prod.fst).Nodup) {typeName name : String}
    (plain : String.ofList (typeName.toList.dropWhile (· = '.')) = name)
    (member : (name, desc) ∈ pool.messages) : pool.lookupMessage typeName = some desc := by
  unfold DescriptorPool.lookupMessage DescriptorPool.lookup
  simp only [plain, SortedMap.get?_of_distinct distinct member]

theorem wellKnown?_of_mem (distinct : (pool.messages.map Prod.snd).Nodup) {name : String}
    (member : (name, desc) ∈ pool.messages) :
    wellKnown? pool desc = ((stripPrefix "google.protobuf."
      (String.ofList (name.toList.dropWhile (· = '.')))).bind WellKnown.ofName) := by
  rw [wellKnown?, wktName, fullNameByValue_of_mem distinct member]
  rfl

variable (holds : HoldsStructs pool valueDesc structDesc listDesc)
include holds

theorem HoldsStructs.lookups :
    pool.lookupMessage ".google.protobuf.Value" = some valueDesc ∧
      pool.lookupMessage ".google.protobuf.Struct" = some structDesc ∧
      pool.lookupMessage ".google.protobuf.ListValue" = some listDesc :=
  ⟨lookupMessage_of_mem holds.distinct.1 (by decide) holds.value,
    lookupMessage_of_mem holds.distinct.1 (by decide) holds.struct,
    lookupMessage_of_mem holds.distinct.1 (by decide) holds.list⟩

theorem HoldsStructs.forms :
    wellKnown? pool valueDesc = some .value ∧ wellKnown? pool structDesc = some .struct ∧
      wellKnown? pool listDesc = some .listValue :=
  ⟨(wellKnown?_of_mem holds.distinct.2 holds.value).trans (by decide),
    (wellKnown?_of_mem holds.distinct.2 holds.struct).trans (by decide),
    (wellKnown?_of_mem holds.distinct.2 holds.list).trans (by decide)⟩

end Lookups

section Steps

variable {libs : Libraries} {pool : DescriptorPool} {opts : JsonOptions}
  {desc : DescriptorProto} {left depth : Nat}

/-- Within the limit, a well-known type is read by its form. -/
theorem jsonToMessageImpl_form (inside : depth ≤ opts.maxDepth) {json : Json}
    {form : JsonResult DynamicMessage}
    (known : wellKnownFromJson libs pool (jsonToMessageImpl libs pool opts left) depth desc json =
      form.map some) :
    jsonToMessageImpl libs pool opts (left + 1) depth desc json = form := by
  have limit : ¬ depth > opts.maxDepth := by omega
  simp only [jsonToMessageImpl, if_neg limit, parseBody, known]
  cases form <;> rfl

theorem messageToJsonImpl_form (inside : depth ≤ opts.maxDepth) {msg : DynamicMessage}
    {form : JsonResult Json}
    (known : wellKnownToJson libs pool (messageToJsonImpl libs pool opts left) depth desc msg =
      form.map some) :
    messageToJsonImpl libs pool opts (left + 1) depth desc msg = form := by
  have limit : ¬ depth > opts.maxDepth := by omega
  simp only [messageToJsonImpl, if_neg limit, messageBody, known]
  cases form <;> rfl

end Steps

section Trips

variable {libs : Libraries} {pool : DescriptorPool} {opts : JsonOptions}
  {valueDesc structDesc listDesc : DescriptorProto} {left depth : Nat}

variable (holds : HoldsStructs pool valueDesc structDesc listDesc)
include holds

private theorem value_read (inside : depth ≤ opts.maxDepth) (json : Json) :
    jsonToMessageImpl libs pool opts (left + 1) depth valueDesc json =
      valueFromJson pool (jsonToMessageImpl libs pool opts left) depth valueDesc json :=
  jsonToMessageImpl_form inside (by rw [wellKnownFromJson, holds.forms.1])

private theorem value_written (inside : depth ≤ opts.maxDepth) (msg : DynamicMessage) :
    messageToJsonImpl libs pool opts (left + 1) depth valueDesc msg =
      WellKnown.valueToJson pool (messageToJsonImpl libs pool opts left) depth msg :=
  messageToJsonImpl_form inside (by rw [wellKnownToJson, holds.forms.1])

private theorem struct_read (inside : depth ≤ opts.maxDepth) (json : Json) :
    jsonToMessageImpl libs pool opts (left + 1) depth structDesc json =
      structFromJson pool (jsonToMessageImpl libs pool opts left) depth structDesc json :=
  jsonToMessageImpl_form inside (by rw [wellKnownFromJson, holds.forms.2.1])

private theorem struct_written (inside : depth ≤ opts.maxDepth) (msg : DynamicMessage) :
    messageToJsonImpl libs pool opts (left + 1) depth structDesc msg =
      structToJson pool (messageToJsonImpl libs pool opts left) depth msg :=
  messageToJsonImpl_form inside (by rw [wellKnownToJson, holds.forms.2.1])

private theorem list_read (inside : depth ≤ opts.maxDepth) (json : Json) :
    jsonToMessageImpl libs pool opts (left + 1) depth listDesc json =
      listValueFromJson pool (jsonToMessageImpl libs pool opts left) depth listDesc json :=
  jsonToMessageImpl_form inside (by rw [wellKnownFromJson, holds.forms.2.2])

private theorem list_written (inside : depth ≤ opts.maxDepth) (msg : DynamicMessage) :
    messageToJsonImpl libs pool opts (left + 1) depth listDesc msg =
      listValueToJson pool (messageToJsonImpl libs pool opts left) depth msg :=
  messageToJsonImpl_form inside (by rw [wellKnownToJson, holds.forms.2.2])

/-- The tree is read as this message type at this depth and written back. -/
def Trips (libs : Libraries) (pool : DescriptorPool) (opts : JsonOptions) (left depth : Nat)
    (desc : DescriptorProto) (json : Json) : Prop :=
  ∃ msg out, jsonToMessageImpl libs pool opts left depth desc json = .ok msg ∧
    messageToJsonImpl libs pool opts left depth desc msg = .ok out ∧ json.Same out

private theorem null_trips (inside : depth ≤ opts.maxDepth) :
    Trips libs pool opts (left + 1) depth valueDesc .null := by
  refine ⟨(DynMsg.new valueDesc pool).setField 1 (.scalar (.i64 0)), .null, ?_, ?_, .null⟩
  · rw [value_read holds inside]
    rfl
  · rw [value_written holds inside]
    simp [WellKnown.valueToJson, getI64, DynMsg.getField_single]

private theorem bool_trips (inside : depth ≤ opts.maxDepth) (b : Bool) :
    Trips libs pool opts (left + 1) depth valueDesc (.bool b) := by
  refine ⟨(DynMsg.new valueDesc pool).setField 4 (.scalar (.bool b)), .bool b, ?_, ?_, .bool b⟩
  · rw [value_read holds inside]
    rfl
  · rw [value_written holds inside]
    simp [WellKnown.valueToJson, getI64, getF64, getStr, getBool, DynMsg.getField_single]

private theorem number_trips (inside : depth ≤ opts.maxDepth) (n : Number) :
    Trips libs pool opts (left + 1) depth valueDesc (.number n) := by
  refine ⟨(DynMsg.new valueDesc pool).setField 2 (.scalar (.f64 n.asF64)),
    .number (.float n.asF64 n.finite_asF64), ?_, ?_, .number rfl⟩
  · rw [value_read holds inside]
    rfl
  · rw [value_written holds inside]
    simp [WellKnown.valueToJson, getI64, getF64, DynMsg.getField_single, Number.fromF64_asF64]

private theorem string_trips (inside : depth ≤ opts.maxDepth) (text : String) :
    Trips libs pool opts (left + 1) depth valueDesc (.string text) := by
  refine ⟨(DynMsg.new valueDesc pool).setField 3 (.scalar (.string text)), .string text, ?_, ?_,
    .string text⟩
  · rw [value_read holds inside]
    rfl
  · rw [value_written holds inside]
    simp [WellKnown.valueToJson, getI64, getF64, getStr, DynMsg.getField_single]

/-- An array whose items trip as a list trips as a value. -/
private theorem array_trips (inside : depth ≤ opts.maxDepth) {items : List Json}
    (trips : Trips libs pool opts left (depth + 1) listDesc (.array items)) :
    Trips libs pool opts (left + 1) depth valueDesc (.array items) := by
  obtain ⟨inner, out, read, written, same⟩ := trips
  refine ⟨(DynMsg.new valueDesc pool).setField 6 (.message inner), out, ?_, ?_, same⟩
  · rw [value_read holds inside]
    simp [valueFromJson, namedFromJson, holds.lookups.2.2, read]
  · rw [value_written holds inside]
    simp [WellKnown.valueToJson, getI64, getF64, getStr, getBool, getMsg, DynMsg.getField_single,
      namedToJson, holds.lookups.2.2, written]

private theorem object_trips (inside : depth ≤ opts.maxDepth) {entries : List (String × Json)}
    (trips : Trips libs pool opts left (depth + 1) structDesc (.object entries)) :
    Trips libs pool opts (left + 1) depth valueDesc (.object entries) := by
  obtain ⟨inner, out, read, written, same⟩ := trips
  refine ⟨(DynMsg.new valueDesc pool).setField 5 (.message inner), out, ?_, ?_, same⟩
  · rw [value_read holds inside]
    simp [valueFromJson, namedFromJson, holds.lookups.2.1, read]
  · rw [value_written holds inside]
    simp [WellKnown.valueToJson, getI64, getF64, getStr, getBool, getMsg, DynMsg.getField_single,
      namedToJson, holds.lookups.2.1, written]

/-- The items of a list are read one by one and written in their order. -/
def ItemsTrip (libs : Libraries) (pool : DescriptorPool) (opts : JsonOptions) (left depth : Nat)
    (items : List Json) : Prop :=
  ∃ msgs outs, items.mapM (fun it =>
      (nestedFromJson pool (jsonToMessageImpl libs pool opts left) depth it).map Value.message) =
        .ok msgs ∧
    msgs.mapM (nestedToJson pool (messageToJsonImpl libs pool opts left) depth) = .ok outs ∧
    SameItems items outs

/-- The entries of an object are read one by one and inserted in their order. -/
def EntriesTrip (libs : Libraries) (pool : DescriptorPool) (opts : JsonOptions) (left depth : Nat)
    (entries : List (String × Json)) : Prop :=
  ∃ msgs outs, entries.mapM (fun entry => do
      let value ← nestedFromJson pool (jsonToMessageImpl libs pool opts left) depth entry.2
      .ok (Value.scalar (.string entry.1), Value.message value)) = .ok msgs ∧
    (∀ out, structEntries pool (messageToJsonImpl libs pool opts left) depth msgs out =
      .ok (outs.foldl (fun out entry => SortedMap.insert out entry.1 entry.2) out)) ∧
    SameEntries entries outs

private theorem list_trips (inside : depth ≤ opts.maxDepth) {items : List Json}
    (trips : ItemsTrip libs pool opts left depth items) :
    Trips libs pool opts (left + 1) depth listDesc (.array items) := by
  obtain ⟨msgs, outs, read, written, same⟩ := trips
  refine ⟨(DynMsg.new listDesc pool).setField 1 (.list msgs), .array outs, ?_, ?_, .array same⟩
  · rw [list_read holds inside]
    simp [listValueFromJson, read]
  · rw [list_written holds inside]
    simp [listValueToJson, DynMsg.getField_single, written]

omit holds in
private theorem SameEntries.keys {entries outs : List (String × Json)}
    (same : SameEntries entries outs) : entries.map Prod.fst = outs.map Prod.fst := by
  induction entries generalizing outs with
  | nil =>
    cases same
    rfl
  | cons entry rest ih =>
    cases same with
    | cons _ tail => rw [List.map_cons, List.map_cons, ih tail]

private theorem struct_trips (inside : depth ≤ opts.maxDepth) {entries : List (String × Json)}
    (distinct : (entries.map Prod.fst).Nodup) (trips : EntriesTrip libs pool opts left depth entries) :
    Trips libs pool opts (left + 1) depth structDesc (.object entries) := by
  obtain ⟨msgs, outs, read, written, same⟩ := trips
  have keys : ((outs ++ []).map Prod.fst).Nodup := by
    rw [List.append_nil, ← same.keys]
    exact distinct
  have reordered := (SortedMap.foldl_insert_perm keys).symm
  rw [List.append_nil] at reordered
  refine ⟨(DynMsg.new structDesc pool).setField 1 (.map msgs), .object _, ?_, ?_,
    .object same reordered⟩
  · rw [struct_read holds inside]
    simp [structFromJson, read]
  · rw [struct_written holds inside]
    simp [structToJson, DynMsg.getField_single, written]

private theorem nested_read (json : Json) :
    nestedFromJson pool (jsonToMessageImpl libs pool opts left) depth json =
      jsonToMessageImpl libs pool opts left (depth + 1) valueDesc json := by
  rw [nestedFromJson, holds.lookups.1]

mutual

theorem value_trip : ∀ (json : Json), json.DistinctKeys → ∀ left depth,
    depth + left = opts.maxDepth + 1 → depth + json.valueDepth ≤ opts.maxDepth →
    Trips libs pool opts left depth valueDesc json
  | .null, _, 0, _, budget, bound => by omega
  | .null, _, _ + 1, _, _, bound => null_trips holds (by omega)
  | .bool _, _, 0, _, budget, bound => by omega
  | .bool b, _, _ + 1, _, _, bound => bool_trips holds (by omega) b
  | .number _, _, 0, _, budget, bound => by omega
  | .number n, _, _ + 1, _, _, bound => number_trips holds (by omega) n
  | .string _, _, 0, _, budget, bound => by omega
  | .string s, _, _ + 1, _, _, bound => string_trips holds (by omega) s
  | .array items, distinct, left, depth, budget, bound => by
    rw [Json.valueDepth] at bound
    obtain ⟨left, rfl⟩ : ∃ n, left = n + 2 := ⟨left - 2, by omega⟩
    refine array_trips holds (by omega) (list_trips holds (by omega) ?_)
    exact items_trip items distinct left (depth + 1) (by omega) (by omega)
  | .object entries, distinct, left, depth, budget, bound => by
    rw [Json.valueDepth] at bound
    obtain ⟨left, rfl⟩ : ∃ n, left = n + 2 := ⟨left - 2, by omega⟩
    refine object_trips holds (by omega) (struct_trips holds (by omega) distinct.1 ?_)
    exact entries_trip entries distinct.2 left (depth + 1) (by omega) (by omega)

theorem items_trip : ∀ (items : List Json), DistinctItems items → ∀ left depth,
    depth + left = opts.maxDepth → depth + itemsDepth items ≤ opts.maxDepth →
    ItemsTrip libs pool opts left depth items
  | [], _, _, _, _, _ => ⟨[], [], rfl, rfl, .nil⟩
  | it :: rest, distinct, left, depth, budget, bound => by
    rw [itemsDepth] at bound
    obtain ⟨msg, out, read, written, same⟩ :=
      value_trip it distinct.1 left (depth + 1) (by omega) (by omega)
    obtain ⟨msgs, outs, readRest, writtenRest, sameRest⟩ :=
      items_trip rest distinct.2 left depth budget (by omega)
    have readHere := (nested_read holds it).trans read
    refine ⟨.message msg :: msgs, out :: outs, ?_, ?_, .cons same sameRest⟩
    · simp [List.mapM_cons, readHere, readRest]
    · simp [List.mapM_cons, nestedToJson, holds.lookups.1, written, writtenRest]

theorem entries_trip : ∀ (entries : List (String × Json)), DistinctEntries entries → ∀ left depth,
    depth + left = opts.maxDepth → depth + entriesDepth entries ≤ opts.maxDepth →
    EntriesTrip libs pool opts left depth entries
  | [], _, _, _, _, _ => ⟨[], [], rfl, fun _ => rfl, .nil⟩
  | (key, v) :: rest, distinct, left, depth, budget, bound => by
    rw [entriesDepth] at bound
    obtain ⟨msg, out, read, written, same⟩ :=
      value_trip v distinct.1 left (depth + 1) (by omega) (by omega)
    obtain ⟨msgs, outs, readRest, writtenRest, sameRest⟩ :=
      entries_trip rest distinct.2 left depth budget (by omega)
    have readHere := (nested_read holds v).trans read
    refine ⟨(.scalar (.string key), .message msg) :: msgs, (key, out) :: outs, ?_, fun printed => ?_,
      .cons same sameRest⟩
    · simp [List.mapM_cons, readHere, readRest]
    · simp [structEntries, nestedToJson, holds.lookups.1, written, writtenRest]

end

mutual

/-- A tree that is too deep is not read. -/
theorem value_fails : ∀ (json : Json), json.DistinctKeys → ∀ left depth,
    depth + left = opts.maxDepth + 1 → opts.maxDepth < depth + json.valueDepth →
    jsonToMessageImpl libs pool opts left depth valueDesc json = .err (depthExceeded opts)
  | _, _, 0, _, _, _ => rfl
  | .null, _, _ + 1, _, budget, deep
  | .bool _, _, _ + 1, _, budget, deep
  | .number _, _, _ + 1, _, budget, deep
  | .string _, _, _ + 1, _, budget, deep => by
    simp only [Json.valueDepth] at deep
    omega
  | .array items, distinct, left + 1, depth, budget, deep => by
    rw [Json.valueDepth] at deep
    rw [value_read holds (by omega)]
    cases left with
    | zero => simp [valueFromJson, namedFromJson, holds.lookups.2.2, jsonToMessageImpl]
    | succ left =>
      have failed := items_fail items distinct left (depth + 1) (by omega) (by omega)
      have inner : jsonToMessageImpl libs pool opts (left + 1) (depth + 1) listDesc (.array items) =
          listValueFromJson pool (jsonToMessageImpl libs pool opts left) (depth + 1) listDesc
            (.array items) := list_read holds (by omega) _
      simp [valueFromJson, namedFromJson, holds.lookups.2.2, inner, listValueFromJson, failed]
  | .object entries, distinct, left + 1, depth, budget, deep => by
    rw [Json.valueDepth] at deep
    rw [value_read holds (by omega)]
    cases left with
    | zero => simp [valueFromJson, namedFromJson, holds.lookups.2.1, jsonToMessageImpl]
    | succ left =>
      have failed := entries_fail entries distinct.2 left (depth + 1) (by omega) (by omega)
      have inner : jsonToMessageImpl libs pool opts (left + 1) (depth + 1) structDesc (.object entries) =
          structFromJson pool (jsonToMessageImpl libs pool opts left) (depth + 1) structDesc
            (.object entries) := struct_read holds (by omega) _
      simp [valueFromJson, namedFromJson, holds.lookups.2.1, inner, structFromJson, failed]

theorem items_fail : ∀ (items : List Json), DistinctItems items → ∀ left depth,
    depth + left = opts.maxDepth → opts.maxDepth < depth + itemsDepth items →
    (items.mapM fun it =>
      (nestedFromJson pool (jsonToMessageImpl libs pool opts left) depth it).map Value.message) =
        .err (depthExceeded opts)
  | [], _, _, _, budget, deep => by
    rw [itemsDepth] at deep
    omega
  | it :: rest, distinct, left, depth, budget, deep => by
    rw [itemsDepth] at deep
    rw [List.mapM_cons, nested_read holds]
    by_cases here : depth + 1 + it.valueDepth ≤ opts.maxDepth
    · have trips : Trips libs pool opts left (depth + 1) valueDesc it :=
        value_trip holds it distinct.1 left (depth + 1) (by omega) here
      obtain ⟨msg, _, read, _⟩ := trips
      rw [read, items_fail rest distinct.2 left depth budget (by omega)]
      rfl
    · rw [value_fails it distinct.1 left (depth + 1) (by omega) (by omega)]
      rfl

theorem entries_fail : ∀ (entries : List (String × Json)), DistinctEntries entries → ∀ left depth,
    depth + left = opts.maxDepth → opts.maxDepth < depth + entriesDepth entries →
    (entries.mapM fun entry => do
      let value ← nestedFromJson pool (jsonToMessageImpl libs pool opts left) depth entry.2
      .ok (Value.scalar (.string entry.1), Value.message value)) = .err (depthExceeded opts)
  | [], _, _, _, budget, deep => by
    rw [entriesDepth] at deep
    omega
  | (key, v) :: rest, distinct, left, depth, budget, deep => by
    rw [entriesDepth] at deep
    rw [List.mapM_cons, nested_read holds]
    by_cases here : depth + 1 + v.valueDepth ≤ opts.maxDepth
    · have trips : Trips libs pool opts left (depth + 1) valueDesc v :=
        value_trip holds v distinct.1 left (depth + 1) (by omega) here
      obtain ⟨msg, _, read, _⟩ := trips
      rw [read, entries_fail rest distinct.2 left depth budget (by omega)]
      rfl
    · rw [value_fails v distinct.1 left (depth + 1) (by omega) (by omega)]
      rfl

end

end Trips

section Claim

variable (libs : Libraries) (pool : DescriptorPool) (opts : JsonOptions)

/-- Neither reading the tree as this type nor writing what is read goes deeper than allowed. -/
def WithinDepth (desc : DescriptorProto) (json : Json) : Prop :=
  jsonToMessage libs pool opts desc json ≠ .err (depthExceeded opts) ∧
    ∀ msg, jsonToMessage libs pool opts desc json = .ok msg →
      messageToJson libs pool opts desc msg ≠ .err (depthExceeded opts)

/-- The tree is read as this type, and what is read is written as the same tree. -/
def RoundTrips (desc : DescriptorProto) (json : Json) : Prop :=
  ∃ msg out, jsonToMessage libs pool opts desc json = .ok msg ∧
    messageToJson libs pool opts desc msg = .ok out ∧ json.Same out

/-- As a `Value` a tree stays within the limit exactly if its messages are nested within it. -/
theorem withinDepth_iff {valueDesc structDesc listDesc : DescriptorProto}
    (holds : HoldsStructs pool valueDesc structDesc listDesc) {json : Json}
    (distinct : json.DistinctKeys) :
    WithinDepth libs pool opts valueDesc json ↔ json.valueDepth ≤ opts.maxDepth := by
  constructor
  · intro within
    refine Nat.le_of_not_lt fun deep => within.1 ?_
    exact value_fails holds json distinct _ 0 (by omega) (by omega)
  · intro bound
    have trips : Trips libs pool opts (opts.maxDepth + 1) 0 valueDesc json :=
      value_trip holds json distinct _ 0 (by omega) (by omega)
    obtain ⟨msg, out, read, written, _⟩ := trips
    refine ⟨fun failed => ?_, fun msg' read' failed => ?_⟩
    · cases read.symm.trans failed
    · cases read.symm.trans read'
      cases written.symm.trans failed

/-- Within the depth limit every JSON tree survives as a `Value`, every object as a `Struct`
and every array as a `ListValue`. -/
theorem json_trees_round_trip (valueDesc structDesc listDesc : DescriptorProto)
    (holds : HoldsStructs pool valueDesc structDesc listDesc) (json : Json)
    (distinct : json.DistinctKeys) :
    (WithinDepth libs pool opts valueDesc json → RoundTrips libs pool opts valueDesc json) ∧
      (∀ entries, json = .object entries → WithinDepth libs pool opts structDesc json →
        RoundTrips libs pool opts structDesc json) ∧
      ∀ items, json = .array items → WithinDepth libs pool opts listDesc json →
        RoundTrips libs pool opts listDesc json := by
  refine ⟨fun within => ?_, fun entries shape within => ?_, fun items shape within => ?_⟩
  · have bound := (withinDepth_iff libs pool opts holds distinct).mp within
    exact value_trip holds json distinct _ 0 (by omega) (by omega)
  · subst shape
    refine struct_trips holds (by omega) distinct.1
      (entries_trip holds entries distinct.2 _ 0 (by omega) (Nat.le_of_not_lt fun deep => within.1 ?_))
    have failed := @entries_fail libs pool opts _ _ _ holds entries distinct.2 opts.maxDepth 0
      (by omega) deep
    refine (struct_read holds (by omega) _).trans ?_
    simp only [structFromJson, failed]
    rfl
  · subst shape
    refine list_trips holds (by omega)
      (items_trip holds items distinct _ 0 (by omega) (Nat.le_of_not_lt fun deep => within.1 ?_))
    have failed := @items_fail libs pool opts _ _ _ holds items distinct opts.maxDepth 0
      (by omega) deep
    refine (list_read holds (by omega) _).trans ?_
    simp only [listValueFromJson, failed]
    rfl

end Claim

section Sample

/-- The types of `google/protobuf/struct.proto`. -/
def valueType : DescriptorProto where
  name := some "Value"
  field := [
    { name := some "null_value", number := some 1, type := some .enum,
      typeName := some ".google.protobuf.NullValue", oneofIndex := some 0 },
    { name := some "number_value", number := some 2, type := some .double, oneofIndex := some 0 },
    { name := some "string_value", number := some 3, type := some .string, oneofIndex := some 0 },
    { name := some "bool_value", number := some 4, type := some .bool, oneofIndex := some 0 },
    { name := some "struct_value", number := some 5, type := some .message,
      typeName := some ".google.protobuf.Struct", oneofIndex := some 0 },
    { name := some "list_value", number := some 6, type := some .message,
      typeName := some ".google.protobuf.ListValue", oneofIndex := some 0 }]
  oneofDecl := [{ name := some "kind" }]

def fieldsEntryType : DescriptorProto where
  name := some "FieldsEntry"
  field := [
    { name := some "key", number := some 1, type := some .string },
    { name := some "value", number := some 2, type := some .message,
      typeName := some ".google.protobuf.Value" }]

def structType : DescriptorProto where
  name := some "Struct"
  field := [
    { name := some "fields", number := some 1, label := some .repeated, type := some .message,
      typeName := some ".google.protobuf.Struct.FieldsEntry" }]
  nestedType := [fieldsEntryType]

def listType : DescriptorProto where
  name := some "ListValue"
  field := [
    { name := some "values", number := some 1, label := some .repeated, type := some .message,
      typeName := some ".google.protobuf.Value" }]

def structPool : DescriptorPool where
  messages := [("google.protobuf.ListValue", listType), ("google.protobuf.Struct", structType),
    ("google.protobuf.Struct.FieldsEntry", fieldsEntryType), ("google.protobuf.Value", valueType)]
  enums := []
  extensions := []
  syntaxName := "proto3"

/-- `{"b": [null, 3, "x"], "a": {"c": true}}` -/
def sampleTree : Json :=
  .object [("b", .array [.null, .number (.posInt 3), .string "x"]),
    ("a", .object [("c", .bool true)])]

private theorem sample_holds : HoldsStructs structPool valueType structType listType where
  distinct := by decide
  value := by decide
  struct := by decide
  list := by decide

theorem json_trees_round_trip_sample :
    RoundTrips sampleLibraries structPool {} valueType sampleTree := by
  have distinct : sampleTree.DistinctKeys := by
    simp [sampleTree, Json.DistinctKeys, DistinctEntries, DistinctItems]
  exact (json_trees_round_trip sampleLibraries structPool {} valueType structType listType
    sample_holds sampleTree distinct).1
      ((withinDepth_iff sampleLibraries structPool {} sample_holds distinct).mpr (by decide))

end Sample

end TptProto.Json
