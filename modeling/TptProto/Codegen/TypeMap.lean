import TptProto.Codegen.Names
import TptProto.MapFlag

/-! The tables `Schema::build` fills while it walks a set, and what a lookup in them finds. -/

namespace TptProto.Codegen

open TptProto.Foundation TptProto.Descriptor
open Compiler (setInsert)

/-- The tables of the generator's `Schema`. -/
structure TypeTables where
  typeMap : List (String × String) := []
  skip : List String := []
  mapEntries : List (String × (TyRef × TyRef)) := []

/-- `format!(".{}", parts.join("."))`. -/
def dotted (parts : List String) : String := "." ++ ".".intercalate parts

/-- Where the walk finds a declaration: the package, the messages around it and its name. -/
structure Place where
  pkg : String
  ancestors : List String
  name : String
  deriving DecidableEq, Repr

namespace Place

/-- The name with only the outermost ancestors. -/
def key (p : Place) (l : Nat) : String := dotted (p.pkg :: p.ancestors.take l ++ [p.name])

def full (p : Place) : String :=
  dotted (p.pkg :: (if p.ancestors.isEmpty then [] else [".".intercalate p.ancestors]) ++ [p.name])

/-- The canonical Rust type name. -/
def rust (p : Place) : String := toRustTypeName p.full

/-- A key under which the declaration is registered. -/
def Names (p : Place) (key : String) : Prop := ∃ l ≤ p.ancestors.length, p.key l = key

instance (p : Place) (key : String) : Decidable (p.Names key) :=
  decidable_of_iff (∃ l < p.ancestors.length + 1, p.key l = key) (by simp only [Nat.lt_succ_iff, Names])

end Place

/-- `register_keys`. -/
def registerKeys (typeMap : List (String × String)) (p : Place) (rust : String) :
    List (String × String) :=
  let keyed := (List.range (p.ancestors.length + 1)).foldl
    (fun typeMap l => Compiler.mapInsert typeMap (p.key l) rust) typeMap
  if SortedMap.contains keyed p.name then keyed else Compiler.mapInsert keyed p.name rust

/-- The types of a map entry's first two fields. -/
def entryTypes : List FieldDescriptorProto → Option (TyRef × TyRef)
  | key :: value :: _ => do
    let k ← TyRef.fromField key
    let v ← TyRef.fromField value
    return (k, v)
  | _ => none

namespace TypeTables

def register (tables : TypeTables) (p : Place) : TypeTables :=
  { tables with typeMap := registerKeys tables.typeMap p p.rust }

def enter (tables : TypeTables) (full : String) (options : Option (List UInt8))
    (field : List FieldDescriptorProto) : TypeTables :=
  if isMapEntry options then
    { tables with
      skip := setInsert tables.skip full
      mapEntries := match entryTypes field with
        | some types => Compiler.mapInsert tables.mapEntries full types
        | none => tables.mapEntries }
  else tables

end TypeTables

def collectEnums (pkg : String) (ancestors : List String) (enums : List EnumDescriptorProto)
    (tables : TypeTables) : TypeTables :=
  enums.foldl (fun tables e => tables.register ⟨pkg, ancestors, e.name.getD ""⟩) tables

mutual

def collectMessage (pkg : String) (ancestors : List String) :
    DescriptorProto → TypeTables → TypeTables
  | ⟨name, field, _, nestedType, enumType, _, _, options, _, _⟩, tables =>
    let place : Place := ⟨pkg, ancestors, name.getD ""⟩
    let tables := (tables.register place).enter place.full options field
    let inner := ancestors ++ [name.getD ""]
    collectEnums pkg inner enumType (collectMessages pkg inner nestedType tables)

def collectMessages (pkg : String) (ancestors : List String) :
    List DescriptorProto → TypeTables → TypeTables
  | [], tables => tables
  | m :: rest, tables =>
    collectMessages pkg ancestors rest (collectMessage pkg ancestors m tables)

end

/-- `Schema::build`. -/
def buildTables (set : FileDescriptorSet) : TypeTables :=
  set.file.foldl (fun tables file =>
    let pkg := file.package.getD ""
    collectEnums pkg [] file.enumType (collectMessages pkg [] file.messageType tables)) {}

section Keys

private theorem intercalate_dots (part : List Char) (parts : List (List Char)) :
    ['.'].intercalate (part :: parts) = part ++ parts.flatMap fun p => '.' :: p := by
  induction parts generalizing part with
  | nil => simp
  | cons next rest ih =>
    rw [List.intercalate_cons_cons, ih next, List.flatMap_cons]
    simp

theorem dotted_toList (part : String) (parts : List String) :
    (dotted (part :: parts)).toList = (part :: parts).flatMap fun p => '.' :: p.toList := by
  rw [dotted, String.toList_append, String.toList_intercalate]
  change ['.'] ++ ['.'].intercalate (part.toList :: parts.map String.toList) = _
  rw [intercalate_dots, List.flatMap_map]
  rfl

/-- Letters and digits of the parts, one after another. -/
theorem joined_dotted (part : String) (parts : List String) :
    joined true (dotted (part :: parts)).toList =
      (part :: parts).flatMap fun p => joined true p.toList := by
  have chain : ∀ (parts : List String) (first : List Char),
      joined true (first ++ parts.flatMap fun p => '.' :: p.toList) =
        joined true first ++ parts.flatMap fun p => joined true p.toList := by
    intro parts
    induction parts with
    | nil => simp
    | cons next rest ih =>
      intro first
      rw [List.flatMap_cons, List.cons_append, joined_dot, ih, List.flatMap_cons]
  rw [dotted_toList]
  exact chain (part :: parts) []

namespace Place

theorem full_eq (p : Place) : p.full = p.key p.ancestors.length := by
  rw [← String.toList_inj, key, full, List.take_length]
  cases chain : p.ancestors with
  | nil => rfl
  | cons outer rest =>
    rw [List.cons_append, dotted_toList, List.cons_append, dotted_toList]
    simp only [List.isEmpty_cons, Bool.false_eq_true, ↓reduceIte, List.flatMap_cons,
      List.flatMap_append, List.flatMap_nil, List.append_nil, List.cons_append,
      List.nil_append, String.toList_intercalate]
    change '.' :: _ ++ ('.' :: ['.'].intercalate (outer.toList :: rest.map String.toList) ++ _) = _
    rw [intercalate_dots, List.flatMap_map]
    simp

theorem names_full (p : Place) : p.Names p.full := ⟨p.ancestors.length, Nat.le_refl _, p.full_eq.symm⟩

/-- A key stands for another Rust name just when it leaves out a letter or a digit. -/
theorem rust_eq_iff {p : Place} {l : Nat} :
    p.rust = toRustTypeName (p.key l) ↔
      ∀ ancestor ∈ p.ancestors.drop l, ∀ c ∈ ancestor.toList, isSeparator c = true := by
  rw [rust, full_eq, ← String.toList_inj, toRustTypeName_toList, toRustTypeName_toList, key, key,
    List.cons_append, List.cons_append, joined_dotted, joined_dotted, List.take_length,
    List.flatMap_cons, List.flatMap_cons, List.append_cancel_left_eq]
  nth_rewrite 1 [← List.take_append_drop l p.ancestors]
  rw [List.flatMap_append, List.flatMap_append, List.flatMap_append, List.append_assoc,
    List.append_cancel_left_eq]
  rw [List.append_left_eq_self, List.flatMap_eq_nil_iff]
  exact forall₂_congr fun _ _ => joined_eq_nil

end Place

end Keys

section Walk

/-- A message or an enum as the walk meets it; an enum has no options or fields here. -/
structure Declaration where
  place : Place
  options : Option (List UInt8) := none
  field : List FieldDescriptorProto := []

/-- What the walk does for one declaration. -/
def TypeTables.declare (tables : TypeTables) (d : Declaration) : TypeTables :=
  (tables.register d.place).enter d.place.full d.options d.field

def enumDeclaration (pkg : String) (ancestors : List String) (e : EnumDescriptorProto) :
    Declaration := { place := ⟨pkg, ancestors, e.name.getD ""⟩ }

mutual

/-- A message and all that is declared in it, in the order of the walk. -/
def visited (pkg : String) (ancestors : List String) : DescriptorProto → List Declaration
  | ⟨name, field, _, nestedType, enumType, _, _, options, _, _⟩ =>
    ⟨⟨pkg, ancestors, name.getD ""⟩, options, field⟩ ::
      (visitedAll pkg (ancestors ++ [name.getD ""]) nestedType ++
        enumType.map (enumDeclaration pkg (ancestors ++ [name.getD ""])))

def visitedAll (pkg : String) (ancestors : List String) : List DescriptorProto → List Declaration
  | [] => []
  | m :: rest => visited pkg ancestors m ++ visitedAll pkg ancestors rest

end

theorem visitedAll_eq (pkg : String) (ancestors : List String) (ms : List DescriptorProto) :
    visitedAll pkg ancestors ms = ms.flatMap (visited pkg ancestors) := by
  induction ms with
  | nil => rw [visitedAll, List.flatMap_nil]
  | cons m rest ih => rw [visitedAll, List.flatMap_cons, ih]

theorem visited_eq (pkg : String) (ancestors : List String) (m : DescriptorProto) :
    visited pkg ancestors m = ⟨⟨pkg, ancestors, m.name.getD ""⟩, m.options, m.field⟩ ::
      (m.nestedType.flatMap (visited pkg (ancestors ++ [m.name.getD ""])) ++
        m.enumType.map (enumDeclaration pkg (ancestors ++ [m.name.getD ""]))) := by
  rw [← visitedAll_eq]
  cases m
  rw [visited]

/-- All that a file declares. -/
def visitedFile (fd : FileDescriptorProto) : List Declaration :=
  fd.messageType.flatMap (visited (fd.package.getD "") []) ++
    fd.enumType.map (enumDeclaration (fd.package.getD "") [])

theorem collectEnums_eq (pkg : String) (ancestors : List String) (enums : List EnumDescriptorProto)
    (tables : TypeTables) : collectEnums pkg ancestors enums tables =
      (enums.map (enumDeclaration pkg ancestors)).foldl TypeTables.declare tables := by
  rw [List.foldl_map]
  rfl

theorem collectMessages_eq {pkg : String} {ancestors : List String} (ms : List DescriptorProto)
    (each : ∀ m ∈ ms, ∀ tables, collectMessage pkg ancestors m tables =
      (visited pkg ancestors m).foldl TypeTables.declare tables) (tables : TypeTables) :
    collectMessages pkg ancestors ms tables =
      (ms.flatMap (visited pkg ancestors)).foldl TypeTables.declare tables := by
  induction ms generalizing tables with
  | nil => rw [collectMessages, List.flatMap_nil, List.foldl_nil]
  | cons m rest ih =>
    rw [collectMessages, each m List.mem_cons_self, ih fun n member =>
      each n (List.mem_cons_of_mem _ member), List.flatMap_cons, List.foldl_append]

theorem collectMessage_eq (pkg : String) (ancestors : List String) (m : DescriptorProto)
    (tables : TypeTables) : collectMessage pkg ancestors m tables =
      (visited pkg ancestors m).foldl TypeTables.declare tables := by
  induction m using DescriptorProto.induction generalizing ancestors tables with
  | step m ih =>
    have inner := collectMessages_eq m.nestedType fun n member tables =>
      ih n member (ancestors ++ [m.name.getD ""]) tables
    rw [visited_eq, List.foldl_cons, List.foldl_append, ← inner, ← collectEnums_eq]
    cases m
    rw [collectMessage]
    rfl

/-- The tables are what the declarations of the set make of empty ones, in order. -/
theorem buildTables_eq (set : FileDescriptorSet) :
    buildTables set = (set.file.flatMap visitedFile).foldl TypeTables.declare {} := by
  rw [buildTables, List.foldl_flatMap]
  congr
  funext tables fd
  have messages := collectMessages_eq fd.messageType fun m _ tables =>
    collectMessage_eq (fd.package.getD "") [] m tables
  rw [visitedFile, List.foldl_append, ← collectEnums_eq, ← messages]

end Walk

section Lookup

private theorem insertAll_get? {p : Place} {typeMap : List (String × String)} {rust key : String}
    (count : Nat) :
    SortedMap.get? ((List.range count).foldl (fun typeMap l => Compiler.mapInsert typeMap (p.key l) rust)
        typeMap) key =
      if ∃ l < count, p.key l = key then some rust else SortedMap.get? typeMap key := by
  induction count with
  | zero => simp
  | succ count ih =>
    rw [List.range_succ, List.foldl_append, List.foldl_cons, List.foldl_nil, Compiler.get?_mapInsert, ih]
    by_cases last : p.key count = key
    · rw [if_pos last, if_pos ⟨count, Nat.lt_succ_self _, last⟩]
    · rw [if_neg last]
      refine if_congr ⟨?_, ?_⟩ rfl rfl
      · rintro ⟨l, below, same⟩
        exact ⟨l, by omega, same⟩
      rintro ⟨l, below, same⟩
      refine ⟨l, Nat.lt_of_le_of_ne (by omega) fun equal => last (equal ▸ same), same⟩

/-- The bare name apart, a declaration's keys have its Rust name from here on. -/
theorem registerKeys_get? {p : Place} {typeMap : List (String × String)} {rust key : String}
    (other : p.name ≠ key) : SortedMap.get? (registerKeys typeMap p rust) key =
      if p.Names key then some rust else SortedMap.get? typeMap key := by
  have keyed := @insertAll_get? p typeMap rust key (p.ancestors.length + 1)
  simp only [Nat.lt_succ_iff] at keyed
  rw [registerKeys]
  split
  · exact keyed
  · rw [Compiler.get?_mapInsert, if_neg other]
    exact keyed

/-- A key has the Rust name of the last declaration registered under it. -/
theorem typeMap_get? {ds : List Declaration} {tables : TypeTables} {key : String}
    (other : ∀ d ∈ ds, d.place.name ≠ key) :
    SortedMap.get? (ds.foldl TypeTables.declare tables).typeMap key =
      (((ds.map Declaration.place).reverse.find? fun p => p.Names key).map Place.rust).or
        (SortedMap.get? tables.typeMap key) := by
  induction ds generalizing tables with
  | nil => rfl
  | cons d rest ih =>
    have step : SortedMap.get? (tables.declare d).typeMap key =
        if d.place.Names key then some d.place.rust else SortedMap.get? tables.typeMap key := by
      rw [← registerKeys_get? (other d List.mem_cons_self)]
      unfold TypeTables.declare TypeTables.enter
      split
      · rfl
      · rfl
    rw [List.foldl_cons, ih fun x member => other x (List.mem_cons_of_mem _ member), step,
      List.map_cons, List.reverse_cons, List.find?_append]
    cases (rest.map Declaration.place).reverse.find? fun p => p.Names key with
    | some later => rfl
    | none =>
      by_cases named : d.place.Names key
      · simp [named]
      · simp [named]

/-- The map entries are under the full names of the entry messages whose fields have types. -/
theorem mapEntries_contains {ds : List Declaration} {tables : TypeTables} {key : String} :
    SortedMap.contains (ds.foldl TypeTables.declare tables).mapEntries key = true ↔
      (∃ d ∈ ds, isMapEntry d.options = true ∧ (entryTypes d.field).isSome ∧
        d.place.full = key) ∨ SortedMap.contains tables.mapEntries key = true := by
  induction ds generalizing tables with
  | nil => simp
  | cons d rest ih =>
    have step : SortedMap.contains (tables.declare d).mapEntries key = true ↔
        (isMapEntry d.options = true ∧ (entryTypes d.field).isSome ∧ d.place.full = key) ∨
          SortedMap.contains tables.mapEntries key = true := by
      unfold TypeTables.declare TypeTables.enter
      by_cases entry : isMapEntry d.options = true
      · rw [if_pos entry]
        cases types : entryTypes d.field with
        | none => simp [TypeTables.register]
        | some kv =>
          simp only [SortedMap.contains, Compiler.get?_mapInsert, TypeTables.register, entry, true_and]
          by_cases same : d.place.full = key <;> simp [same]
      · rw [if_neg entry]
        simp [entry, TypeTables.register]
    rw [List.foldl_cons, ih, step]
    simp only [List.mem_cons, exists_eq_or_imp, or_assoc]
    exact or_left_comm

end Lookup

end TptProto.Codegen
