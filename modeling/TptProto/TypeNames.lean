import TptProto.Codegen.Places
import Mathlib.Data.List.Pairwise

/-! The Rust names of a compiled set: which of them clash, and which the generator's type map
gets right. -/

namespace TptProto

open Foundation Descriptor Language Compiler Codegen

section Distinct

/-- No two different names of a list are alike. -/
def Apart (alike : String → String → Prop) (names : List String) : Prop :=
  ∀ a ∈ names, ∀ b ∈ names, a ≠ b → ¬ alike a b

/-- The names of a message's fields and oneofs. -/
def memberNames (m : DescriptorProto) : List String :=
  m.field.map (fun f => f.name.getD "") ++ m.oneofDecl.map fun o => o.name.getD ""

/-- The names a message's fields and oneofs are written with. -/
def writtenMembers (m : Message) : List String :=
  (written m).map Prod.fst ++ m.oneofs.map fun o => o.name.name

/-- The places of all messages and enums of a set. -/
def setPlaces (set : FileDescriptorSet) : List Place :=
  (set.file.flatMap visitedFile).map Declaration.place

/-- Types of different full names, and members of a message of different names, have
different names in the generated code. -/
structure RustNamesDistinct (set : FileDescriptorSet) : Prop where
  types : ∀ p ∈ setPlaces set, ∀ q ∈ setPlaces set, p.fqn ≠ q.fqn → p.rust ≠ q.rust
  members : ∀ fd ∈ set.file, ∀ entry ∈ fileDescriptors fd,
    Apart (fun a b => toSnake a = toSnake b) (memberNames entry.2)

private theorem resolved_members (visible : List String) (fileName scope : String)
    (m : DescriptorProto) :
    memberNames (resolveMessage visible fileName scope m).1 = memberNames m := by
  have kept : ∀ f, (resolveFieldType scope visible fileName f).1.name = f.name := by
    intro f
    unfold resolveFieldType
    repeat' split
    all_goals rfl
  rw [resolveMessage_fst]
  simp [memberNames, kept]

private theorem converted_members (cx : FileContext) (path : String) (m : Message) :
    memberNames (cx.convertMessage path m).1 = writtenMembers m := by
  have keys := congrArg (List.map Prod.fst) (@ownFields_keys cx path m)
  have names := congrArg (List.map fun name : Option String => name.getD "") keys
  simp only [List.map_map, Function.comp_def, Option.getD_some] at names
  rw [FileContext.convertMessage_fst, memberNames, writtenMembers, names, List.map_map]
  rfl

/-- A property of the names of two fields, and so of every map entry, holds of all messages of
a file's descriptor exactly if it does of those written. -/
private theorem produced_members {Holds : List String → Prop} (entry : Holds ["key", "value"])
    {cx : FileContext} {visible : List String} {fileName : String} (m : Message)
    (path scope outer around : String) :
    (∀ entry ∈ produced outer (resolveMessage visible fileName scope (cx.convertMessage path m).1).1,
        Holds (memberNames entry.2)) ↔
      ∀ entry ∈ within around m, Holds (writtenMembers entry.2) := by
  induction m using Message.induction generalizing path scope outer around with
  | step m ih =>
    have entries : ∀ mf outer scope, ∀ x ∈ produced outer
        (resolveMessage visible fileName scope (cx.convertEntry mf)).1, Holds (memberNames x.2) := by
      intro mf outer scope x member
      rw [produced_eq, resolveMessage_fst] at member
      rw [List.mem_singleton.mp member, ← resolveMessage_fst, resolved_members]
      exact entry
    rw [produced_eq, within_eq, List.forall_mem_cons, List.forall_mem_cons, resolved_members,
      converted_members]
    refine and_congr_right fun _ => ?_
    rw [resolveMessage_fst, FileContext.convertMessage_fst]
    simp only [List.map_append, List.map_map, List.flatMap_append, List.flatMap_map,
      List.forall_mem_append, List.forall_mem_flatMap, Function.comp_apply]
    constructor
    · exact fun both n member => (ih n member _ _ _ _).mp (both.2 n member)
    · exact fun nested => ⟨fun mf _ => entries mf _ _, fun n member =>
        (ih n member _ _ _ _).mpr (nested n member)⟩

/-- No names clash exactly if no two full names look alike and no two members of a message
have the same words. -/
theorem rustNames_distinct_iff (displayFloat : UInt64 → String) (files : List File) :
    RustNamesDistinct (compileSet displayFloat files).set ↔
      Apart LookAlike (files.flatMap declaredNames) ∧
        ∀ f ∈ files, ∀ entry ∈ fileMessages f, Apart SameWords (writtenMembers entry.2) := by
  have types : (∀ p ∈ setPlaces (compileSet displayFloat files).set,
      ∀ q ∈ setPlaces (compileSet displayFloat files).set, p.fqn ≠ q.fqn → p.rust ≠ q.rust) ↔
      Apart LookAlike (files.flatMap declaredNames) := by
    have names : files.flatMap declaredNames = (files.flatMap filePlaces).map Place.fqn := by
      rw [List.map_flatMap]
      exact List.flatMap_congr fun f _ => declaredNames_places f
    rw [setPlaces, visited_compileSet, names, Apart]
    simp only [List.forall_mem_map, Place.rust_fqn, ne_eq, toRustTypeName_eq_iff]
  have members : (∀ fd ∈ (compileSet displayFloat files).set.file, ∀ entry ∈ fileDescriptors fd,
      Apart (fun a b => toSnake a = toSnake b) (memberNames entry.2)) ↔
      ∀ f ∈ files, ∀ entry ∈ fileMessages f, Apart SameWords (writtenMembers entry.2) := by
    simp only [toSnake_eq_iff]
    rw [compileSet_file, List.forall_mem_map]
    refine forall₂_congr fun f _ => ?_
    simp only [fileDescriptors, resolvedFile, resolveReferences, resolveMessages_eq, compile,
      FileContext.convertMessages_eq, each, List.flatMap_map, List.map_map,
      List.forall_mem_flatMap, fileMessages, Function.comp_apply]
    exact forall₂_congr fun m _ => produced_members (by unfold Apart; decide) m _ _ _ _
  constructor
  · rintro ⟨first, second⟩
    exact ⟨types.mp first, members.mp second⟩
  · rintro ⟨first, second⟩
    exact ⟨types.mpr first, members.mpr second⟩

/-- `message A { message B {} } message AB {}` in proto3. -/
def clashingFile : File where
  name := "a.proto"
  syntaxDecl := some ⟨{}, "proto3"⟩
  messages := [{ emptyMessage "A" with nestedMessages := [emptyMessage "B"] }, emptyMessage "AB"]

/-- The generator has one name, `AB`, for the types `.A.B` and `.AB`. -/
theorem not_rustNames_distinct :
    ¬ ∀ (displayFloat : UInt64 → String) (files : List File), Accepted displayFloat files →
      RustNamesDistinct (compileSet displayFloat files).set := by
  intro distinct
  have types := (distinct (fun _ => "") [clashingFile] (by decide +kernel)).types
  revert types
  decide +kernel

end Distinct

section TypeMap

/-- The type map has each declared name with its own Rust name. -/
def TypeMapFaithful (tables : TypeTables) (files : List File) : Prop :=
  ∀ name ∈ files.flatMap declaredNames,
    SortedMap.get? tables.typeMap name = some (toRustTypeName name)

/-- The last place registered under the name is so without one of its ancestors that has a
letter or a digit. -/
def Overwritten (places : List Place) (name : String) : Prop :=
  ∃ before p after, places = before ++ p :: after ∧
    (∃ l ≤ p.ancestors.length, p.key l = name ∧
      ∃ ancestor ∈ p.ancestors.drop l, ∃ c ∈ ancestor.toList, isSeparator c = false) ∧
    ∀ q ∈ after, ¬ q.Names name

/-- The field's type is a map entry nested in its own message. -/
def MapFieldOf (scope : String) (m : DescriptorProto) (field : FieldDescriptorProto) : Prop :=
  field.label = some .repeated ∧ field.type = some .message ∧ ∃ entry ∈ m.nestedType,
    isMapEntry entry.options = true ∧
      field.typeName = some (qualify (qualify scope (m.name.getD "")) (entry.name.getD ""))

/-- `is_map_field` holds of all map fields of a set. -/
def MapsRecognised (tables : TypeTables) (set : FileDescriptorSet) : Prop :=
  ∀ schema : Schema, schema.mapEntries = tables.mapEntries → ∀ fd ∈ set.file,
    ∀ entry ∈ fileDescriptors fd, ∀ field ∈ entry.2.field, MapFieldOf entry.1 entry.2 field →
      isMapField schema field = true

variable {displayFloat : UInt64 → String} {files : List File}

private theorem mem_declaredNames {name : String} :
    name ∈ files.flatMap declaredNames ↔ ∃ f ∈ files, ∃ p ∈ filePlaces f, p.fqn = name := by
  simp only [List.mem_flatMap, declaredNames_places, List.mem_map]

private theorem typeMap_lookup (spelled : ∀ f ∈ files, SpelledFile f) {name : String}
    (full : name.toList.head? = some '.') :
    SortedMap.get? (buildTables (compileSet displayFloat files).set).typeMap name =
      ((files.flatMap filePlaces).reverse.find? fun p => p.Names name).map Place.rust := by
  have other : ∀ p ∈ files.flatMap filePlaces, p.name ≠ name := by
    intro p member
    obtain ⟨f, inside, declared⟩ := List.mem_flatMap.mp member
    exact (filePlaces_in (spelled f inside) p declared).name_ne full
  rw [← visited_compileSet displayFloat files] at other ⊢
  rw [buildTables_eq, typeMap_get? fun d member => other d.place (List.mem_map_of_mem member),
    SortedMap.get?_nil, Option.or_none]

private theorem find?_names {places : List Place} {name : String} {p : Place} :
    places.reverse.find? (fun p => p.Names name) = some p ↔
      p.Names name ∧ ∃ before after, places = before ++ p :: after ∧ ∀ q ∈ after, ¬ q.Names name := by
  rw [List.find?_eq_some_iff_append]
  simp only [decide_eq_true_eq, Bool.not_eq_true', decide_eq_false_iff_not]
  refine and_congr_right fun _ => ⟨?_, ?_⟩
  · rintro ⟨later, earlier, split, none⟩
    refine ⟨earlier.reverse, later.reverse, ?_, by simpa using none⟩
    rw [← List.reverse_inj, split]
    simp
  · rintro ⟨before, after, rfl, none⟩
    exact ⟨after.reverse, before.reverse, by simp, by simpa using none⟩

private theorem exists_top {f : File} (declares : declaredNames f ≠ []) :
    ∃ p ∈ filePlaces f, p.ancestors = [] := by
  cases messages : f.messages with
  | cons m rest =>
    refine ⟨⟨packageName f, [], m.name.name⟩, List.mem_append_left _ ?_, rfl⟩
    rw [messages, List.flatMap_cons, placesIn_eq]
    exact List.mem_append_left _ List.mem_cons_self
  | nil =>
    cases enums : f.enums with
    | cons e rest =>
      refine ⟨⟨packageName f, [], e.name.name⟩, List.mem_append_right _ ?_, rfl⟩
      rw [enums]
      exact List.mem_cons_self
    | nil => exact absurd (by simp [declaredNames, messages, enums]) declares

/-- The type map is right exactly if all declarations are in packages and none is registered,
after the type of that name, under a name that leaves out letters or digits. -/
theorem typeMap_faithful_iff (spelled : ∀ f ∈ files, SpelledFile f) :
    TypeMapFaithful (buildTables (compileSet displayFloat files).set) files ↔
      (∀ f ∈ files, declaredNames f ≠ [] → packageName f ≠ "") ∧
        ∀ name ∈ files.flatMap declaredNames, ¬ Overwritten (files.flatMap filePlaces) name := by
  have inside : ∀ f ∈ files, ∀ p ∈ filePlaces f, p.In (packageName f) :=
    fun f member => filePlaces_in (spelled f member)
  have head : ∀ f ∈ files, ∀ p ∈ filePlaces f, p.fqn.toList.head? = some '.' :=
    fun f member p declared => (inside f member p declared).fqn_head (spelled f member).package
  constructor
  · intro faithful
    refine ⟨fun f member declares unpackaged => ?_, fun name declared overwritten => ?_⟩
    · obtain ⟨p, among, top⟩ := exists_top declares
      have found := faithful p.fqn (mem_declaredNames.mpr ⟨f, member, p, among, rfl⟩)
      rw [typeMap_lookup spelled (head f member p among), Option.map_eq_some_iff] at found
      obtain ⟨q, registered, _⟩ := found
      exact (unpackaged ▸ inside f member p among).unregistered top q (find?_names.mp registered).1
    · obtain ⟨before, p, after, split, ⟨l, below, key, ancestor, left, c, letter, mark⟩, last⟩ :=
        overwritten
      obtain ⟨f, member, q, among, rfl⟩ := mem_declaredNames.mp declared
      have found := faithful q.fqn declared
      rw [typeMap_lookup spelled (head f member q among),
        find?_names.mpr ⟨⟨l, below, key⟩, before, after, split, last⟩, ← key] at found
      have blank := Place.rust_eq_iff.mp (Option.some.inj found) ancestor left c letter
      rw [mark] at blank
      cases blank
  · rintro ⟨packaged, kept⟩ name declared
    obtain ⟨f, member, p, among, rfl⟩ := mem_declaredNames.mp declared
    have filled := packaged f member fun none => by
      rw [declaredNames_places, List.map_eq_nil_iff] at none
      rw [none] at among
      cases among
    have own : p.Names p.fqn :=
      (inside f member p among).full_eq_fqn (spelled f member).package filled ▸ p.names_full
    rw [typeMap_lookup spelled (head f member p among)]
    cases found : (files.flatMap filePlaces).reverse.find? fun q => q.Names p.fqn with
    | none =>
      rw [List.find?_eq_none] at found
      exact absurd (decide_eq_true own) (found p (List.mem_reverse.mpr
        (List.mem_flatMap.mpr ⟨f, member, among⟩)))
    | some q =>
      obtain ⟨⟨l, below, key⟩, before, after, split, last⟩ := find?_names.mp found
      rw [Option.map_some, ← key, Option.some.injEq, Place.rust_eq_iff]
      intro ancestor left c letter
      cases mark : isSeparator c with
      | true => rfl
      | false =>
        exact (kept p.fqn declared ⟨before, q, after, split,
          ⟨l, below, key, ancestor, left, c, letter, mark⟩, last⟩).elim

section Maps

/-- The walk meets what is nested in any message of a descriptor. -/
private theorem nested_visited {pkg : String} {m dm n : DescriptorProto} (ancestors : List String)
    {scope : String} (below : (scope, dm) ∈ produced (ancestors.foldl qualify pkg) m)
    (nested : n ∈ dm.nestedType) :
    ∃ d ∈ visited pkg ancestors m, d.options = n.options ∧
      d.place.fqn = qualify (qualify scope (dm.name.getD "")) (n.name.getD "") := by
  induction m using DescriptorProto.induction generalizing ancestors with
  | step m ih =>
    have inner : qualify (ancestors.foldl qualify pkg) (m.name.getD "") =
        (ancestors ++ [m.name.getD ""]).foldl qualify pkg := by
      rw [List.foldl_append]
      rfl
    rw [produced_eq, List.mem_cons, List.mem_flatMap, inner] at below
    rw [visited_eq]
    rcases below with same | ⟨k, member, deeper⟩
    · obtain ⟨rfl, rfl⟩ := Prod.mk.inj same
      refine ⟨⟨⟨pkg, ancestors ++ [dm.name.getD ""], n.name.getD ""⟩, n.options, n.field⟩, ?_, rfl, ?_⟩
      · refine List.mem_cons_of_mem _ (List.mem_append_left _ (List.mem_flatMap.mpr ⟨n, nested, ?_⟩))
        rw [visited_eq]
        exact List.mem_cons_self
      · rw [inner]
        rfl
    · obtain ⟨d, among, shown⟩ := ih k member _ deeper
      exact ⟨d, List.mem_cons_of_mem _ (List.mem_append_left _
        (List.mem_flatMap.mpr ⟨k, member, among⟩)), shown⟩

variable {cx : FileContext} {visible : List String} {fileName : String}

private theorem fromField_isSome {f : FieldDescriptorProto} {pathPrefix : String} {ty : TypeRef}
    (type : f.type = some (cx.resolveType ty).1) (name : f.typeName = (cx.resolveType ty).2) :
    (TyRef.fromField (resolveFieldType pathPrefix visible fileName f).1).isSome = true := by
  have named : ∀ t : FieldType, f.typeName.isSome = true →
      (resolveFieldType pathPrefix visible fileName f).1.typeName.isSome = true := by
    intro t some
    unfold resolveFieldType
    repeat' split
    all_goals first
      | rfl
      | exact some
  have resolvedType := resolveFieldType_type pathPrefix visible fileName f
  rw [type] at resolvedType
  rw [TyRef.fromField, resolvedType]
  cases ty with
  | scalar s =>
    cases s <;> rfl
  | named ident =>
    have filled : (resolveFieldType pathPrefix visible fileName f).1.typeName.isSome = true :=
      named .message (by rw [name]; rfl)
    cases kind : (cx.resolveType (.named ident)).1 <;> simp [filled]

/-- The only declarations that are map entries are those of maps, and their types are known. -/
private theorem entry_visited {m : Message} {pkg path scope : String} {ancestors : List String}
    {d : Declaration} (around : String)
    (member : d ∈ visited pkg ancestors
      (resolveMessage visible fileName scope (cx.convertMessage path m).1).1)
    (entry : isMapEntry d.options = true) :
    (entryTypes d.field).isSome = true ∧ ∃ x ∈ within around m, x.2.maps ≠ [] := by
  induction m using Message.induction generalizing path scope around ancestors with
  | step m ih =>
    rw [visited_eq, resolveMessage_fst, FileContext.convertMessage_fst] at member
    rw [within_eq]
    simp only [List.map_append, List.map_map, List.mem_cons, List.mem_append, List.mem_flatMap,
      List.mem_map, Function.comp_apply] at member
    rcases member with rfl | ⟨_, (⟨mf, among, rfl⟩ | ⟨n, nested, rfl⟩), inside⟩ | ⟨e, _, rfl⟩
    · cases entry
    · rw [visited_eq, resolveMessage_fst] at inside
      rw [List.mem_singleton.mp inside]
      refine ⟨?_, _, List.mem_cons_self, fun none => ?_⟩
      swap
      · rw [show m.maps = [] from none] at among
        cases among
      have first := @fromField_isSome cx visible fileName
        { name := some "key", number := some 1, label := some .optional,
          type := some (cx.resolveType mf.key).1, typeName := (cx.resolveType mf.key).2 }
        (qualify scope m.name.name) mf.key rfl rfl
      have second := @fromField_isSome cx visible fileName
        { name := some "value", number := some 2, label := some .optional,
          type := some (cx.resolveType mf.value).1, typeName := (cx.resolveType mf.value).2 }
        (qualify scope m.name.name) mf.value rfl rfl
      obtain ⟨k, key⟩ := Option.isSome_iff_exists.mp first
      obtain ⟨v, value⟩ := Option.isSome_iff_exists.mp second
      simp only [FileContext.convertEntry, List.map_cons, List.map_nil, entryTypes, Option.getD_some,
        key, value]
      rfl
    · obtain ⟨types, x, below, maps⟩ := ih n nested (qualify around m.name.name) inside
      exact ⟨types, x, List.mem_cons_of_mem _ (List.mem_flatMap.mpr ⟨n, nested, below⟩), maps⟩
    · cases entry

private theorem resolve_absolute {f : FieldDescriptorProto} {pathPrefix tn : String}
    (absolute : tn.toList.head? = some '.') (name : f.typeName = some tn) :
    (resolveFieldType pathPrefix visible fileName f).1.typeName = some tn := by
  unfold resolveFieldType
  split
  · rw [name]
    simp only [resolveTypeName, absolute, ↓reduceIte]
    split
    · rename_i resolved found
      split at found
      · rw [← Option.some.inj found]
      · cases found
    · exact name
  · exact name

/-- Each map of the source is a map field of the compiled message. -/
private theorem mapField_produced {m : Message} {path scope around : String}
    (aligned : Aligned path scope) (filled : m.name.name.toList ≠ [])
    (inner : ∀ entry ∈ within around m, ∀ name ∈ localNames entry.2, Spelled name)
    (maps : ∃ x ∈ within around m, x.2.maps ≠ []) :
    ∃ x ∈ produced scope (resolveMessage visible fileName scope (cx.convertMessage path m).1).1,
      ∃ field ∈ x.2.field, MapFieldOf x.1 x.2 field := by
  induction m using Message.induction generalizing path scope around with
  | step m ih =>
    obtain ⟨x, member, declares⟩ := maps
    rw [within_eq] at member inner
    have name : (resolveMessage visible fileName scope (cx.convertMessage path m).1).1.name.getD "" =
        m.name.name := by
      rw [resolveMessage_fst, FileContext.convertMessage_fst]
      rfl
    have nestedTypes : (resolveMessage visible fileName scope (cx.convertMessage path m).1).1.nestedType =
        (m.maps.map cx.convertEntry ++ m.nestedMessages.map fun n =>
          (cx.convertMessage (FileContext.selfPath path m.name.name) n).1).map fun n =>
            (resolveMessage visible fileName (qualify scope m.name.name) n).1 := by
      rw [resolveMessage_fst, FileContext.convertMessage_fst]
      rfl
    rw [produced_eq, name, nestedTypes]
    rcases List.mem_cons.mp member with rfl | below
    · obtain ⟨mf, rest, split⟩ := List.exists_cons_of_ne_nil declares
      have among : mf ∈ m.maps := split ▸ List.mem_cons_self
      have own := aligned.own filled
      have absolute : "." ++ FileContext.selfPath path m.name.name ++ "." ++ FileContext.entryName mf =
          qualify (qualify scope m.name.name) (FileContext.entryName mf) := own.entry (selfPath_filled filled)
      refine ⟨_, List.mem_cons_self, (resolveFieldType scope visible fileName
        (FileContext.convertMapField (FileContext.selfPath path m.name.name) mf).1).1, ?_, ?_⟩
      · rw [resolveMessage_fst, FileContext.convertMessage_fst]
        refine List.mem_map_of_mem (List.mem_append_right _ ?_)
        exact List.mem_map_of_mem among
      · refine ⟨?_, ?_, (resolveMessage visible fileName (qualify scope m.name.name)
          (cx.convertEntry mf)).1, ?_, ?_, ?_⟩
        · unfold resolveFieldType
          repeat' split
          all_goals rfl
        · exact resolveFieldType_type _ _ _ _
        · rw [nestedTypes]
          exact List.mem_map_of_mem (List.mem_append_left _ (List.mem_map_of_mem among))
        · rw [resolveMessage_fst]
          rfl
        · rw [name, resolveMessage_fst]
          refine resolve_absolute ?_ (congrArg some absolute)
          rw [qualify_toList, own, if_neg (selfPath_filled filled)]
          rfl
    · obtain ⟨n, nested, deeper⟩ := List.mem_flatMap.mp below
      have nestedFilled : n.name.name.toList ≠ [] := (inner _ List.mem_cons_self n.name.name (by
        simp only [localNames, List.mem_append, List.mem_map]
        exact .inl (.inr ⟨n, nested, rfl⟩))).1
      obtain ⟨y, among, field, shown⟩ := ih n nested (aligned.own filled) nestedFilled
        (fun entry lower => inner entry (List.mem_cons_of_mem _
          (List.mem_flatMap.mpr ⟨n, nested, lower⟩))) ⟨x, deeper, declares⟩
      refine ⟨y, List.mem_cons_of_mem _ (List.mem_flatMap.mpr ⟨_, ?_, among⟩), field, shown⟩
      exact List.mem_map_of_mem (List.mem_append_right _ (List.mem_map_of_mem nested))

end Maps

/-- A map entry's type is in the generator's table exactly if its file has a package. -/
private theorem recognised_iff_package (spelled : ∀ f ∈ files, SpelledFile f)
    (accepted : Accepted displayFloat files) {f : File} (member : f ∈ files) {d : Declaration}
    (among : d ∈ visitedFile (resolvedFile displayFloat files f).1)
    (entry : isMapEntry d.options = true) (types : (entryTypes d.field).isSome = true) :
    SortedMap.contains (buildTables (compileSet displayFloat files).set).mapEntries d.place.fqn =
      true ↔ packageName f ≠ "" := by
  have placed : ∀ g ∈ files, ∀ x ∈ visitedFile (resolvedFile displayFloat files g).1,
      x.place ∈ filePlaces g := by
    intro g _ x inside
    rw [← visitedFile_places displayFloat files g]
    exact List.mem_map_of_mem inside
  have inFile : ∀ g ∈ files, ∀ x ∈ visitedFile (resolvedFile displayFloat files g).1,
      x.place.In (packageName g) := fun g memberG x inside =>
    filePlaces_in (spelled g memberG) _ (placed g memberG x inside)
  have own := inFile f member d among
  rw [buildTables_eq, compileSet_file, List.flatMap_map, mapEntries_contains]
  constructor
  · rintro (⟨x, inSet, _, _, same⟩ | none) unpackaged
    · obtain ⟨g, memberG, inside⟩ := List.mem_flatMap.mp inSet
      have theirs := inFile g memberG x inside
      by_cases package : packageName g = ""
      · -- Without a package the walk's full name starts with two dots.
        have chars := congrArg String.toList same
        rw [Place.full_eq, Place.key_toList, theirs.pkg, package, own.fqn_toList
          (spelled f member).package, unpackaged, if_pos (by rfl)] at chars
        obtain ⟨first, rest, split⟩ := List.exists_cons_of_ne_nil
          (List.append_ne_nil_of_right_ne_nil d.place.ancestors (List.cons_ne_nil d.place.name []))
        have identifier : Spelled first := by
          have each : ∀ name ∈ d.place.ancestors ++ [d.place.name], Spelled name := by
            simpa [or_imp, forall_and] using ⟨own.around, own.name⟩
          exact each first (split ▸ List.mem_cons_self)
        obtain ⟨c, tail, shape⟩ := List.exists_cons_of_ne_nil identifier.1
        obtain ⟨next, others, inner⟩ := List.exists_cons_of_ne_nil
          (List.append_ne_nil_of_right_ne_nil (x.place.ancestors.take x.place.ancestors.length)
            (List.cons_ne_nil x.place.name []))
        rw [split, inner, List.flatMap_cons, List.flatMap_cons, shape] at chars
        exact identifier.2 (shape ▸ (List.cons.inj (List.cons.inj chars).2).1 ▸ List.mem_cons_self)
      · have differs : f ≠ g := fun equal => package (equal ▸ unpackaged)
        have : Std.Symm fun f g => List.Disjoint (declaredNames f) (declaredNames g) :=
          ⟨fun _ _ disjoint _ second first => disjoint first second⟩
        have apart : List.Disjoint (declaredNames f) (declaredNames g) :=
          accepted.disjoint.forall member memberG differs
        refine @apart d.place.fqn ?_ ?_
        · rw [declaredNames_places]
          exact List.mem_map_of_mem (placed f member d among)
        · rw [declaredNames_places, ← same, theirs.full_eq_fqn (spelled g memberG).package package]
          exact List.mem_map_of_mem (placed g memberG x inside)
    · cases none
  · intro package
    exact .inl ⟨d, List.mem_flatMap.mpr ⟨f, member, among⟩, entry, types,
      own.full_eq_fqn (spelled f member).package package⟩

/-- Map fields are recognised exactly in files with a package. -/
theorem maps_recognised_iff (spelled : ∀ f ∈ files, SpelledFile f)
    (accepted : Accepted displayFloat files) :
    MapsRecognised (buildTables (compileSet displayFloat files).set)
        (compileSet displayFloat files).set ↔
      ∀ f ∈ files, (∃ entry ∈ fileMessages f, entry.2.maps ≠ []) → packageName f ≠ "" := by
  have package : ∀ f : File, (f.package.map fun p => p.name).getD "" = packageName f := fun _ => rfl
  have messages : ∀ f, (resolvedFile displayFloat files f).1.messageType = f.messages.map fun m =>
      (resolveMessage (namesSeenBy displayFloat files f) f.name (packageName f)
        ((fileContext displayFloat f).convertMessage (packageName f) m).1).1 := by
    intro f
    simp only [resolvedFile, resolveReferences, resolveMessages_eq, compile,
      FileContext.convertMessages_eq, each, List.map_map, package]
    rfl
  -- A map field's type is a declaration of its own file.
  have declared : ∀ f ∈ files, ∀ x ∈ fileDescriptors (resolvedFile displayFloat files f).1,
      ∀ field ∈ x.2.field, MapFieldOf x.1 x.2 field →
        ∃ d ∈ visitedFile (resolvedFile displayFloat files f).1, isMapEntry d.options = true ∧
          (entryTypes d.field).isSome = true ∧ field.typeName = some d.place.fqn ∧
          ∃ entry ∈ fileMessages f, entry.2.maps ≠ [] := by
    rintro f _ x member field _ ⟨_, _, n, nested, options, name⟩
    rw [fileDescriptors, messages, List.mem_flatMap] at member
    obtain ⟨_, inMessages, below⟩ := member
    obtain ⟨m, top, rfl⟩ := List.mem_map.mp inMessages
    obtain ⟨d, among, same, fqn⟩ := nested_visited [] below nested
    obtain ⟨types, entry, inside, maps⟩ := entry_visited (packageName f) among
      (same ▸ options)
    refine ⟨d, ?_, same ▸ options, types, by rw [name, fqn], entry,
      List.mem_flatMap.mpr ⟨m, top, inside⟩, maps⟩
    rw [visitedFile, messages]
    exact List.mem_append_left _ (List.mem_flatMap.mpr ⟨_, inMessages, among⟩)
  constructor
  · rintro recognised f member ⟨entry, inFile, maps⟩
    obtain ⟨m, top, inside⟩ := List.mem_flatMap.mp inFile
    have name : Spelled m.name.name := (spelled f member).top _
      (List.mem_append_left _ (List.mem_map_of_mem top))
    obtain ⟨x, below, field, among, shown⟩ := @mapField_produced
      (fileContext displayFloat f) (namesSeenBy displayFloat files f) f.name m _ _ (packageName f)
      (Aligned.package (spelled f member).package) name.1
      (fun entry lower => (spelled f member).inner entry (List.mem_flatMap.mpr ⟨m, top, lower⟩))
      ⟨entry, inside, maps⟩
    have inSet : x ∈ fileDescriptors (resolvedFile displayFloat files f).1 := by
      rw [fileDescriptors, messages]
      exact List.mem_flatMap.mpr ⟨_, List.mem_map_of_mem top, below⟩
    obtain ⟨d, walked, options, types, typeName, _⟩ := declared f member x inSet field among shown
    have found := recognised ⟨[], [], _⟩ rfl (resolvedFile displayFloat files f).1
      (compileSet_file ▸ List.mem_map_of_mem member) x inSet field among shown
    rw [isMapField, typeName] at found
    simp only [Bool.and_eq_true, Option.map_some, Option.getD_some] at found
    exact (recognised_iff_package spelled accepted member walked options types).mp found.2
  · intro packaged schema same fd inSet x inFile field among shown
    rw [compileSet_file] at inSet
    obtain ⟨f, member, rfl⟩ := List.mem_map.mp inSet
    obtain ⟨d, walked, options, types, typeName, maps⟩ := declared f member x inFile field among shown
    obtain ⟨label, type, _⟩ := shown
    have found := (recognised_iff_package spelled accepted member walked options types).mpr
      (packaged f member maps)
    rw [isMapField, label, type, typeName, same]
    simpa using found

/-- The type map is right exactly if every declaration is in a package and no type's name is
registered once more for a type with another Rust name; map fields are recognised exactly in
files with a package. -/
theorem typeTables_iff (displayFloat : UInt64 → String) (files : List File)
    (spelled : ∀ f ∈ files, SpelledFile f) (accepted : Accepted displayFloat files) :
    (TypeMapFaithful (buildTables (compileSet displayFloat files).set) files ↔
      (∀ f ∈ files, declaredNames f ≠ [] → packageName f ≠ "") ∧
        ∀ name ∈ files.flatMap declaredNames, ¬ Overwritten (files.flatMap filePlaces) name) ∧
    (MapsRecognised (buildTables (compileSet displayFloat files).set)
        (compileSet displayFloat files).set ↔
      ∀ f ∈ files, (∃ entry ∈ fileMessages f, entry.2.maps ≠ []) → packageName f ≠ "") :=
  ⟨typeMap_faithful_iff spelled, maps_recognised_iff spelled accepted⟩

/-- `package p; message A { message B {} } message B {}` in proto3. -/
def shadowingFile : File where
  name := "a.proto"
  syntaxDecl := some ⟨{}, "proto3"⟩
  package := some ⟨"p", {}⟩
  messages := [emptyMessage "B", { emptyMessage "A" with nestedMessages := [emptyMessage "B"] }]

private theorem shadowingFile_spelled : ∀ f ∈ [shadowingFile], SpelledFile f := by
  intro f member
  rw [List.mem_singleton.mp member]
  exact ⟨by decide +kernel, by decide +kernel, by decide +kernel⟩

theorem typeTables_shadowing :
    (TypeMapFaithful (buildTables (compileSet (fun _ => "") [shadowingFile]).set) [shadowingFile] ↔
      (∀ f ∈ [shadowingFile], declaredNames f ≠ [] → packageName f ≠ "") ∧
        ∀ name ∈ [shadowingFile].flatMap declaredNames,
          ¬ Overwritten ([shadowingFile].flatMap filePlaces) name) ∧
    (MapsRecognised (buildTables (compileSet (fun _ => "") [shadowingFile]).set)
        (compileSet (fun _ => "") [shadowingFile]).set ↔
      ∀ f ∈ [shadowingFile], (∃ entry ∈ fileMessages f, entry.2.maps ≠ []) → packageName f ≠ "") :=
  typeTables_iff (fun _ => "") [shadowingFile] shadowingFile_spelled (by decide +kernel)

/-- The type map has the Rust name of `.p.A.B` for `.p.B`. -/
theorem not_typeTables :
    ¬ ∀ (displayFloat : UInt64 → String) (files : List File), (∀ f ∈ files, SpelledFile f) →
      Accepted displayFloat files →
      TypeMapFaithful (buildTables (compileSet displayFloat files).set) files ∧
        MapsRecognised (buildTables (compileSet displayFloat files).set)
          (compileSet displayFloat files).set := by
  intro right
  have found := (right (fun _ => "") [shadowingFile] shadowingFile_spelled (by decide +kernel)).1 ".p.B"
    (by decide +kernel)
  revert found
  decide +kernel

end TypeMap

end TptProto
