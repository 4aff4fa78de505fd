import Mathlib.Data.Prod.Lex
import Mathlib.Data.String.Basic
import TptProto.Foundation.Sorting
import TptProto.Text.Print

/-! Deterministic output: neither the order in which the entries of a map are stored nor that in
which a descriptor lists its fields is to be seen in the text. -/

namespace TptProto.Text

open TptProto.Foundation TptProto.Core TptProto.Descriptor TptProto.Reflect

/-- A value of one of the types that a map key can be declared with. -/
def IsKey : Value → Prop
  | .scalar (.string _) | .scalar (.bool _) | .scalar (.i64 _) | .scalar (.u64 _) => True
  | _ => False

mutual

/-- Every map within has keys that are all different. -/
def KeyedMaps : Value → Prop
  | .scalar _ | .enum _ => True
  | .message msg => KeyedMessage msg
  | .list items => KeyedItems items
  | .map entries =>
    (entries.map Prod.fst).Nodup ∧ (∀ entry ∈ entries, IsKey entry.1) ∧ KeyedEntries entries

def KeyedMessage : DynMsg Value → Prop
  | ⟨_, fields, _, _, _⟩ => KeyedFields fields

def KeyedFields : List (Int32 × Value) → Prop
  | [] => True
  | (_, value) :: rest => KeyedMaps value ∧ KeyedFields rest

def KeyedItems : List Value → Prop
  | [] => True
  | item :: rest => KeyedMaps item ∧ KeyedItems rest

def KeyedEntries : List (Value × Value) → Prop
  | [] => True
  | (_, value) :: rest => KeyedMaps value ∧ KeyedEntries rest

end

mutual

/-- The same value but for the order of the entries of its maps, at every level. -/
inductive Reordered : Value → Value → Prop where
  | scalar (s : ScalarValue) : Reordered (.scalar s) (.scalar s)
  | enum (n : Int32) : Reordered (.enum n) (.enum n)
  | message {msg other : DynMsg Value} (same : ReorderedMessage msg other) :
      Reordered (.message msg) (.message other)
  | list {items others : List Value} (each : ReorderedItems items others) :
      Reordered (.list items) (.list others)
  | map {entries middle others : List (Value × Value)} (each : ReorderedEntries entries middle)
      (order : middle.Perm others) : Reordered (.map entries) (.map others)

inductive ReorderedMessage : DynMsg Value → DynMsg Value → Prop where
  | mk {desc desc' : DescriptorProto} {fields others extensions extensions' : List (Int32 × Value)}
      {unknown unknown' : UnknownFieldSet} {pool pool' : DescriptorPool}
      (each : ReorderedFields fields others) :
      ReorderedMessage ⟨desc, fields, extensions, unknown, pool⟩
        ⟨desc', others, extensions', unknown', pool'⟩

inductive ReorderedFields : List (Int32 × Value) → List (Int32 × Value) → Prop where
  | nil : ReorderedFields [] []
  | cons {number : Int32} {value other : Value} {rest others : List (Int32 × Value)}
      (head : Reordered value other) (tail : ReorderedFields rest others) :
      ReorderedFields ((number, value) :: rest) ((number, other) :: others)

inductive ReorderedItems : List Value → List Value → Prop where
  | nil : ReorderedItems [] []
  | cons {item other : Value} {rest others : List Value} (head : Reordered item other)
      (tail : ReorderedItems rest others) : ReorderedItems (item :: rest) (other :: others)

inductive ReorderedEntries : List (Value × Value) → List (Value × Value) → Prop where
  | nil : ReorderedEntries [] []
  | cons {key value other : Value} {rest others : List (Value × Value)}
      (head : Reordered value other) (tail : ReorderedEntries rest others) :
      ReorderedEntries ((key, value) :: rest) ((key, other) :: others)

end

/-- Two descriptors that list the same fields, each in its own order. -/
def SameFields (desc other : DescriptorProto) : Prop := desc.field.Perm other.field

/-- Two pools that have such descriptors under the same names. -/
def SamePools (pool other : DescriptorPool) : Prop :=
  ∀ name, Option.Rel SameFields (pool.lookupMessage name) (other.lookupMessage name)

def DistinctNumbers (desc : DescriptorProto) : Prop :=
  (desc.field.map fun field => field.number.getD 0).Nodup

section Keys

/-- The place of a key in the order: its kind, and then its value. -/
def keyPlace : Value → Nat ×ₗ (String ×ₗ Int)
  | .scalar (.string s) => toLex (0, toLex (s, 0))
  | .scalar (.bool b) => toLex (2, toLex ("", if b then 1 else 0))
  | .scalar (.i64 x) => toLex (3, toLex ("", x.toInt))
  | .scalar (.u64 x) => toLex (4, toLex ("", (x.toNat : Int)))
  | _ => toLex (6, toLex ("", 0))

private theorem compare_isLE {α : Type} [Ord α] [LE α] [DecidableLE α] [Std.LawfulOrderOrd α]
    (x y : α) : (compare x y).isLE = decide (x ≤ y) := by
  rw [Bool.eq_iff_iff, decide_eq_true_eq]
  exact Std.isLE_compare

private theorem compare_string (x y : String) : (compare x y).isLE = decide (x ≤ y) := by
  rw [Bool.eq_iff_iff, decide_eq_true_eq, ← Ordering.ne_gt_iff_isLE]
  exact compare_le_iff_le

private theorem keyPlace_fst {a : Value} (isKey : IsKey a) : (ofLex (keyPlace a)).1 = keyRank a := by
  unfold IsKey at isKey
  split at isKey
  · rfl
  · rfl
  · rfl
  · rfl
  · cases isKey

/-- Two keys of one kind. -/
private inductive OneKind : Value → Value → Prop where
  | string (x y : String) : OneKind (.scalar (.string x)) (.scalar (.string y))
  | bool (x y : Bool) : OneKind (.scalar (.bool x)) (.scalar (.bool y))
  | i64 (x y : Int64) : OneKind (.scalar (.i64 x)) (.scalar (.i64 y))
  | u64 (x y : UInt64) : OneKind (.scalar (.u64 x)) (.scalar (.u64 y))

private theorem oneKind_of_rank {a b : Value} (isKey : IsKey a) (isKey' : IsKey b)
    (same : keyRank a = keyRank b) : OneKind a b := by
  unfold IsKey at isKey isKey'
  split at isKey <;> split at isKey' <;> first | constructor | contradiction | cases same

private theorem place_le_iff {rank : Nat} {s t : String} {m n : Int} :
    toLex (rank, toLex (s, m)) ≤ toLex (rank, toLex (t, n)) ↔ s < t ∨ s = t ∧ m ≤ n := by
  rw [Prod.Lex.toLex_le_toLex, Prod.Lex.toLex_le_toLex]
  constructor
  · rintro (less | ⟨_, below⟩)
    · exact absurd less (lt_irrefl rank)
    · exact below
  · exact fun below => .inr ⟨rfl, below⟩

/-- Among keys, the order is that of their places. -/
private theorem mapKeyCmp_isLE {a b : Value} (isKey : IsKey a) (isKey' : IsKey b) :
    (mapKeyCmp a b).isLE = decide (keyPlace a ≤ keyPlace b) := by
  by_cases same : keyRank a = keyRank b
  · cases oneKind_of_rank isKey isKey' same with
    | string x y =>
      refine (compare_string x y).trans (decide_eq_decide.mpr ?_)
      rw [keyPlace, keyPlace, place_le_iff, le_iff_lt_or_eq]
      exact or_congr_right ⟨fun equal => ⟨equal, le_refl 0⟩, And.left⟩
    | bool x y =>
      cases x with
      | _ => cases y with
        | _ => decide
    | i64 x y =>
      refine (compare_isLE x.toInt y.toInt).trans (decide_eq_decide.mpr ?_)
      rw [keyPlace, keyPlace, place_le_iff]
      exact ⟨fun below => .inr ⟨rfl, below⟩, fun below => (below.resolve_left (lt_irrefl "")).2⟩
    | u64 x y =>
      refine (compare_isLE x y).trans (decide_eq_decide.mpr ?_)
      rw [keyPlace, keyPlace, place_le_iff, UInt64.le_iff_toNat_le, ← Int.ofNat_le]
      exact ⟨fun below => .inr ⟨rfl, below⟩, fun below => (below.resolve_left (lt_irrefl "")).2⟩
  · unfold mapKeyCmp
    rw [if_pos same, compare_isLE]
    refine decide_eq_decide.mpr ?_
    rw [Prod.Lex.le_iff, keyPlace_fst isKey, keyPlace_fst isKey']
    exact ⟨fun below => .inl (lt_of_le_of_ne below same),
      fun either => either.elim le_of_lt fun both => (same both.1).elim⟩

private theorem keyPlace_injective {a b : Value} (isKey : IsKey a) (isKey' : IsKey b)
    (same : keyPlace a = keyPlace b) : a = b := by
  have rank : keyRank a = keyRank b := by rw [← keyPlace_fst isKey, ← keyPlace_fst isKey', same]
  cases oneKind_of_rank isKey isKey' rank with
  | string x y =>
    cases same
    rfl
  | bool x y =>
    have flags : ∀ x y : Bool, (if x = true then (1 : Int) else 0) = (if y = true then 1 else 0) →
      x = y := by decide
    rw [flags x y (congrArg (fun place => (ofLex (ofLex place).2).2) same)]
  | i64 x y =>
    have numbers : x.toInt = y.toInt := congrArg (fun place => (ofLex (ofLex place).2).2) same
    rw [Int64.toInt_inj.mp numbers]
  | u64 x y =>
    have numbers : (x.toNat : Int) = y.toNat := congrArg (fun place => (ofLex (ofLex place).2).2) same
    rw [UInt64.toNat_inj.mp (Int.ofNat.inj numbers)]

end Keys

section Sorted

variable {opts : TextOptions}

/-- Entries with different keys are printed in one order. -/
private theorem sortedEntries_of_perm {α : Type} (deterministic : opts.deterministic = true)
    {entries others : List (Value × α)} (perm : entries.Perm others)
    (distinct : (entries.map Prod.fst).Nodup) (keys : ∀ entry ∈ entries, IsKey entry.1) :
    sortedEntries opts entries = sortedEntries opts others := by
  have byPlace {items : List (Value × α)} (keys : ∀ entry ∈ items, IsKey entry.1) :
      sortedEntries opts items =
        items.mergeSort fun a b => decide (keyPlace a.1 ≤ keyPlace b.1) := by
    rw [sortedEntries, if_pos deterministic]
    exact Sorting.mergeSort_congr fun a inside b inside' => mapKeyCmp_isLE (keys a inside) (keys b inside')
  rw [byPlace keys, byPlace fun entry member => keys entry (perm.mem_iff.mpr member)]
  apply Sorting.mergeSort_of_perm (fun entry : Value × α => keyPlace entry.1) perm
  have places := List.Nodup.map_on (f := keyPlace) (fun a inside b inside' equal => by
    obtain ⟨entry, member, rfl⟩ := List.mem_map.mp inside
    obtain ⟨entry', member', rfl⟩ := List.mem_map.mp inside'
    exact keyPlace_injective (keys entry member) (keys entry' member') equal) distinct
  rwa [List.map_map] at places

/-- Fields with different numbers are printed in one order. -/
private theorem printedFields_of_perm (deterministic : opts.deterministic = true)
    {desc other : DescriptorProto} (same : SameFields desc other) (distinct : DistinctNumbers desc) :
    printedFields opts desc = printedFields opts other := by
  have byNumber (fields : List FieldDescriptorProto) :
      (fields.mergeSort fun f g => f.number.getD 0 ≤ g.number.getD 0) =
        fields.mergeSort fun f g => decide ((f.number.getD 0).toInt ≤ (g.number.getD 0).toInt) :=
    Sorting.mergeSort_congr fun f _ g _ => decide_eq_decide.mpr Int32.le_iff_toInt_le
  unfold printedFields
  dsimp only
  rw [if_pos deterministic, if_pos deterministic, byNumber, byNumber]
  apply Sorting.mergeSort_of_perm (fun f : FieldDescriptorProto => (f.number.getD 0).toInt)
    (List.Perm.filter _ same)
  have numbers := List.Nodup.map_on (f := Int32.toInt) (fun a _ b _ => Int32.toInt_inj.mp) distinct
  rw [List.map_map] at numbers
  exact numbers.sublist (List.filter_sublist.map _)

end Sorted

section Lookup

variable {pool other : DescriptorPool}

private theorem findFieldByNumber_of_perm {desc desc' : DescriptorProto} (same : SameFields desc desc')
    (distinct : DistinctNumbers desc) (number : Int32) :
    desc.findFieldByNumber number = desc'.findFieldByNumber number := by
  unfold DescriptorProto.findFieldByNumber
  cases found : desc'.field.find? fun f => f.number = some number with
  | none =>
    rw [List.find?_eq_none] at found ⊢
    exact fun f inside => found f (same.mem_iff.mp inside)
  | some f =>
    have member := same.mem_iff.mpr (List.mem_of_find?_eq_some found)
    have numbered : f.number = some number := by simpa using List.find?_some found
    cases found' : desc.field.find? fun f => f.number = some number with
    | none => exact absurd (decide_eq_true numbered) (List.find?_eq_none.mp found' f member)
    | some g =>
      have numbered' : g.number = some number := by simpa using List.find?_some found'
      rw [List.inj_on_of_nodup_map distinct (List.mem_of_find?_eq_some found') member
        (by rw [numbered, numbered'])]

private theorem getD_same {found found' : Option DescriptorProto} {desc desc' : DescriptorProto}
    (rel : Option.Rel SameFields found found') (same : SameFields desc desc') :
    SameFields (found.getD desc) (found'.getD desc') := by
  cases rel with
  | some same => exact same
  | none => exact same

private theorem subDescriptor_same (pools : SamePools pool other) (field : FieldDescriptorProto) :
    SameFields (subDescriptor pool field) (subDescriptor other field) :=
  getD_same (pools _) (.refl _)

private theorem bind_lookup_same (pools : SamePools pool other) (name : Option String) :
    Option.Rel SameFields (name.bind pool.lookupMessage) (name.bind other.lookupMessage) := by
  cases name with
  | none => exact .none
  | some name => exact pools name

private theorem mapValueDescriptor_same (pools : SamePools pool other)
    (distinct : ∀ name desc, pool.lookupMessage name = some desc → DistinctNumbers desc)
    (field : FieldDescriptorProto) :
    SameFields (mapValueDescriptor pool field) (mapValueDescriptor other field) := by
  refine getD_same ?_ (subDescriptor_same pools field)
  have entries := bind_lookup_same pools field.typeName
  cases found : field.typeName.bind pool.lookupMessage with
  | none =>
    rw [found] at entries
    cases found' : field.typeName.bind other.lookupMessage with
    | none => exact .none
    | some _ =>
      rw [found'] at entries
      cases entries
  | some entry =>
    rw [found] at entries
    cases found' : field.typeName.bind other.lookupMessage with
    | none =>
      rw [found'] at entries
      cases entries
    | some entry' =>
      rw [found'] at entries
      cases entries with
      | some same =>
        obtain ⟨name, _, isFound⟩ := Option.bind_eq_some_iff.mp found
        show Option.Rel SameFields ((entry.findFieldByNumber 2).bind _)
          ((entry'.findFieldByNumber 2).bind _)
        rw [← findFieldByNumber_of_perm same (distinct name entry isFound)]
        cases entry.findFieldByNumber 2 with
        | none => exact .none
        | some vf => exact bind_lookup_same pools vf.typeName

end Lookup

section Printing

variable {fmt : Formatting} {pool other : DescriptorPool} {opts : TextOptions}

private theorem entryPrinters_eq (entries : List (Value × Value)) :
    entryPrinters fmt pool opts entries =
      entries.map fun entry => (entry.1, printer fmt pool opts entry.2) := by
  induction entries with
  | nil => rfl
  | cons entry rest hypothesis => rw [entryPrinters, hypothesis, List.map_cons]

/-- What of two pools and the options lets no order be seen. -/
structure Orderless (pool other : DescriptorPool) (opts : TextOptions) : Prop where
  deterministic : opts.deterministic = true
  pools : SamePools pool other
  distinct : ∀ name desc, pool.lookupMessage name = some desc → DistinctNumbers desc

private theorem subDescriptor_distinct (orderless : Orderless pool other opts)
    (field : FieldDescriptorProto) : DistinctNumbers (subDescriptor pool field) := by
  unfold subDescriptor
  cases found : pool.lookupMessage (field.typeName.getD "") with
  | none => exact .nil
  | some desc => exact orderless.distinct _ desc found

private theorem mapValueDescriptor_distinct (orderless : Orderless pool other opts)
    (field : FieldDescriptorProto) : DistinctNumbers (mapValueDescriptor pool field) := by
  unfold mapValueDescriptor
  dsimp only
  cases found : (do
      let entry ← field.typeName.bind pool.lookupMessage
      let vf ← entry.findFieldByNumber 2
      vf.typeName.bind pool.lookupMessage : Option DescriptorProto) with
  | none => exact subDescriptor_distinct orderless field
  | some desc =>
    obtain ⟨entry, _, found⟩ := Option.bind_eq_some_iff.mp found
    obtain ⟨vf, _, found⟩ := Option.bind_eq_some_iff.mp found
    obtain ⟨name, _, found⟩ := Option.bind_eq_some_iff.mp found
    exact orderless.distinct name desc found

/-- Maps with the same entries are printed alike. -/
private theorem sortedEntries_printers (orderless : Orderless pool other opts)
    {entries middle others : List (Value × Value)} (distinct : (entries.map Prod.fst).Nodup)
    (keys : ∀ entry ∈ entries, IsKey entry.1)
    (each : entryPrinters fmt pool opts entries = entryPrinters fmt other opts middle)
    (order : middle.Perm others) :
    sortedEntries opts (entryPrinters fmt pool opts entries) =
      sortedEntries opts (entryPrinters fmt other opts others) := by
  apply sortedEntries_of_perm orderless.deterministic
  · rw [each, entryPrinters_eq, entryPrinters_eq]
    exact order.map _
  · rw [entryPrinters_eq, List.map_map]
    exact distinct
  · intro entry member
    rw [entryPrinters_eq] at member
    obtain ⟨stored, inside, rfl⟩ := List.mem_map.mp member
    exact keys stored inside

mutual

private theorem printer_reordered (orderless : Orderless pool other opts) {value reordered : Value}
    (keyed : KeyedMaps value) (same : Reordered value reordered) :
    printer fmt pool opts value = printer fmt other opts reordered := by
  cases same with
  | scalar s => rfl
  | enum n => rfl
  | message each =>
    rw [printer, printer]
    congr 1
    · funext field name indent
      rw [messagePrinter_reordered orderless keyed each (subDescriptor_same orderless.pools field)
        (subDescriptor_distinct orderless field)]
    · funext field indent
      exact messagePrinter_reordered orderless keyed each
        (mapValueDescriptor_same orderless.pools orderless.distinct field)
        (mapValueDescriptor_distinct orderless field) indent
  | list each =>
    rw [printer, printer, itemPrinters_reordered orderless keyed each]
  | map each order =>
    rw [printer, printer, sortedEntries_printers orderless keyed.1 keyed.2.1
      (entryPrinters_reordered orderless keyed.2.2 each) order]

private theorem messagePrinter_reordered (orderless : Orderless pool other opts)
    {msg reordered : DynMsg Value} (keyed : KeyedMessage msg) (same : ReorderedMessage msg reordered)
    {desc desc' : DescriptorProto} (fields : SameFields desc desc') (distinct : DistinctNumbers desc)
    (indent : Nat) :
    messagePrinter fmt pool opts msg desc indent = messagePrinter fmt other opts reordered desc' indent := by
  cases same with
  | mk each =>
    rw [messagePrinter, messagePrinter, fieldPrinters_reordered orderless keyed each, printMessage,
      printMessage, printedFields_of_perm orderless.deterministic fields distinct]

private theorem fieldPrinters_reordered (orderless : Orderless pool other opts)
    {fields reordered : List (Int32 × Value)} (keyed : KeyedFields fields)
    (same : ReorderedFields fields reordered) :
    fieldPrinters fmt pool opts fields = fieldPrinters fmt other opts reordered := by
  cases same with
  | nil => rfl
  | cons head tail =>
    rw [fieldPrinters, fieldPrinters, printer_reordered orderless keyed.1 head,
      fieldPrinters_reordered orderless keyed.2 tail]

private theorem itemPrinters_reordered (orderless : Orderless pool other opts)
    {items reordered : List Value} (keyed : KeyedItems items) (same : ReorderedItems items reordered) :
    itemPrinters fmt pool opts items = itemPrinters fmt other opts reordered := by
  cases same with
  | nil => rfl
  | cons head tail =>
    rw [itemPrinters, itemPrinters, printer_reordered orderless keyed.1 head,
      itemPrinters_reordered orderless keyed.2 tail]

private theorem entryPrinters_reordered (orderless : Orderless pool other opts)
    {entries reordered : List (Value × Value)} (keyed : KeyedEntries entries)
    (same : ReorderedEntries entries reordered) :
    entryPrinters fmt pool opts entries = entryPrinters fmt other opts reordered := by
  cases same with
  | nil => rfl
  | cons head tail =>
    rw [entryPrinters, entryPrinters, printer_reordered orderless keyed.1 head,
      entryPrinters_reordered orderless keyed.2 tail]

end

end Printing

/-- With distinct field numbers, the text of a message is the same in whatever order the entries of
its maps are stored and in whatever order the descriptors list their fields. -/
theorem messageToText_orderless (fmt : Formatting) {pool other : DescriptorPool} {opts : TextOptions}
    (deterministic : opts.deterministic = true) (pools : SamePools pool other)
    (numbers : ∀ name desc, pool.lookupMessage name = some desc → DistinctNumbers desc)
    {desc desc' : DescriptorProto} (fields : SameFields desc desc') (distinct : DistinctNumbers desc)
    {msg reordered : DynamicMessage} (keyed : KeyedMessage msg) (same : ReorderedMessage msg reordered) :
    messageToText fmt pool opts desc msg = messageToText fmt other opts desc' reordered :=
  congrArg String.ofList
    (messagePrinter_reordered ⟨deterministic, pools, numbers⟩ keyed same fields distinct 0)

private def emptyPool : DescriptorPool := ⟨[], [], [], "proto3"⟩

private theorem emptyPool_same : SamePools emptyPool emptyPool := fun _ => .none

private def namedField (name : String) (number : Int32) : FieldDescriptorProto where
  name := some name
  number := some number
  label := some .optional
  type := some .int32

private def messageOf (fields : List (Int32 × Value)) : DynamicMessage :=
  ⟨{}, fields, [], .empty, emptyPool⟩

/-- Two labels and two fields, each in two orders. -/
theorem messageToText_orderless_labels :
    messageToText sampleFormatting emptyPool { deterministic := true }
        { field := [namedField "c" 3, namedField "a" 1] }
        (messageOf [(3, .map [(.scalar (.string "z"), .scalar (.i64 1)),
          (.scalar (.string "a"), .scalar (.i64 2))])]) =
      messageToText sampleFormatting emptyPool { deterministic := true }
        { field := [namedField "a" 1, namedField "c" 3] }
        (messageOf [(3, .map [(.scalar (.string "a"), .scalar (.i64 2)),
          (.scalar (.string "z"), .scalar (.i64 1))])]) := by
  refine messageToText_orderless sampleFormatting rfl emptyPool_same nofun ?_ ?_ ?_
    (.mk (.cons (.map (.cons (.scalar _) (.cons (.scalar _) .nil)) (.swap _ _ _)) .nil))
  · exact .swap (namedField "a" 1) (namedField "c" 3) []
  · simp [DistinctNumbers, namedField]
  · refine ⟨⟨?_, ?_, trivial, trivial, trivial⟩, trivial⟩
    · simp
    · simp [IsKey]

private theorem printedFields_pair (first second : String) :
    printedFields { deterministic := true } { field := [namedField first 1, namedField second 1] } =
      [namedField first 1, namedField second 1] := by
  unfold printedFields
  exact List.mergeSort_of_pairwise (by simp [namedField])

/-- Two fields with one number are printed in the order in which they are listed. -/
theorem not_messageToText_orderless : ¬ ∀ (fmt : Formatting) (pool other : DescriptorPool)
    (opts : TextOptions) (desc desc' : DescriptorProto) (msg reordered : DynamicMessage),
    opts.deterministic = true → SamePools pool other → SameFields desc desc' → KeyedMessage msg →
      ReorderedMessage msg reordered →
      messageToText fmt pool opts desc msg = messageToText fmt other opts desc' reordered := by
  intro all
  have text := all sampleFormatting emptyPool emptyPool { deterministic := true }
    { field := [namedField "a" 1, namedField "b" 1] } { field := [namedField "b" 1, namedField "a" 1] }
    (messageOf [(1, .scalar (.i64 5))]) (messageOf [(1, .scalar (.i64 5))]) rfl emptyPool_same
    (.swap (namedField "b" 1) (namedField "a" 1) []) ⟨trivial, trivial⟩ (.mk (.cons (.scalar _) .nil))
  have characters := congrArg String.toList text
  simp only [messageToText, String.toList_ofList, messageOf, messagePrinter, printMessage,
    printedFields_pair] at characters
  revert characters
  decide

end TptProto.Text
