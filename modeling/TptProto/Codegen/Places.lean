import TptProto.Codegen.TypeMap
import TptProto.Compiler.Kinds

/-! Where a source file's types are declared, as the generator's walk over the compiled set
meets them. -/

namespace TptProto.Codegen

open TptProto.Descriptor TptProto.Language TptProto.Compiler
open FileContext (entryName)

/-- The name of the package and messages around a place. -/
def Place.scope (p : Place) : String := p.ancestors.foldl qualify p.pkg

/-- The fully-qualified name, as the compiler resolves references to it. -/
def Place.fqn (p : Place) : String := qualify p.scope p.name

section Source

mutual

/-- A message, the entries of its maps and all it declares. -/
def placesIn (pkg : String) (ancestors : List String) : Message → List Place
  | ⟨_, name, _, _, maps, nestedMessages, nestedEnums, _, _, _, _, _, _⟩ =>
    let inner := ancestors ++ [name.name]
    ⟨pkg, ancestors, name.name⟩ :: (maps.map (fun mf => ⟨pkg, inner, entryName mf⟩) ++
      placesInAll pkg inner nestedMessages ++ nestedEnums.map fun e => ⟨pkg, inner, e.name.name⟩)

def placesInAll (pkg : String) (ancestors : List String) : List Message → List Place
  | [] => []
  | m :: rest => placesIn pkg ancestors m ++ placesInAll pkg ancestors rest

end

theorem placesInAll_eq (pkg : String) (ancestors : List String) (ms : List Message) :
    placesInAll pkg ancestors ms = ms.flatMap (placesIn pkg ancestors) := by
  induction ms with
  | nil => rw [placesInAll, List.flatMap_nil]
  | cons m rest ih => rw [placesInAll, List.flatMap_cons, ih]

theorem placesIn_eq (pkg : String) (ancestors : List String) (m : Message) :
    placesIn pkg ancestors m = ⟨pkg, ancestors, m.name.name⟩ ::
      (m.maps.map (fun mf => ⟨pkg, ancestors ++ [m.name.name], entryName mf⟩) ++
        m.nestedMessages.flatMap (placesIn pkg (ancestors ++ [m.name.name])) ++
        m.nestedEnums.map fun e => ⟨pkg, ancestors ++ [m.name.name], e.name.name⟩) := by
  rw [← placesInAll_eq]
  cases m
  rw [placesIn]

/-- All types a file declares, in the order of the walk. -/
def filePlaces (f : File) : List Place :=
  f.messages.flatMap (placesIn (packageName f) []) ++
    f.enums.map fun e => ⟨packageName f, [], e.name.name⟩

theorem declaredIn_places (pkg : String) (ancestors : List String) (m : Message) :
    declaredIn (ancestors.foldl qualify pkg) m = (placesIn pkg ancestors m).map Place.fqn := by
  induction m using Message.induction generalizing ancestors with
  | step m ih =>
    have inner : qualify (ancestors.foldl qualify pkg) m.name.name =
        (ancestors ++ [m.name.name]).foldl qualify pkg := by
      rw [List.foldl_append]
      rfl
    rw [declaredIn_eq, placesIn_eq, List.map_cons, List.map_append, List.map_append, List.map_map,
      List.map_map, List.map_flatMap, inner]
    congr 3
    · exact inner.symm
    · exact List.flatMap_congr fun n member => ih n member (ancestors ++ [m.name.name])

theorem declaredNames_places (f : File) :
    declaredNames f = (filePlaces f).map Place.fqn := by
  rw [declaredNames, filePlaces, List.map_append, List.map_flatMap, List.map_map]
  congr 1
  exact List.flatMap_congr fun m _ => declaredIn_places (packageName f) [] m

/-- The package is the file's, and all names around the place are identifiers. -/
structure Place.In (p : Place) (pkg : String) : Prop where
  pkg : p.pkg = pkg
  around : ∀ name ∈ p.ancestors, Spelled name
  name : Spelled p.name

theorem placesIn_in {pkg scope : String} {ancestors : List String} {m : Message}
    (around : ∀ name ∈ ancestors, Spelled name) (name : Spelled m.name.name)
    (inner : ∀ entry ∈ within scope m, ∀ name ∈ localNames entry.2, Spelled name) :
    ∀ p ∈ placesIn pkg ancestors m, p.In pkg := by
  induction m using Message.induction generalizing scope ancestors with
  | step m ih =>
    rw [within_eq, List.forall_mem_cons] at inner
    have deeper : ∀ name ∈ ancestors ++ [m.name.name], Spelled name := by
      simpa [or_imp, forall_and] using ⟨around, name⟩
    have own : ∀ name ∈ localNames m, (⟨pkg, ancestors ++ [m.name.name], name⟩ : Place).In pkg :=
      fun name member => ⟨rfl, deeper, inner.1 name member⟩
    simp only [localNames, List.forall_mem_append, List.forall_mem_map] at own
    rw [placesIn_eq]
    simp only [List.forall_mem_cons, List.forall_mem_append, List.forall_mem_map,
      List.forall_mem_flatMap]
    refine ⟨⟨rfl, around, name⟩, ⟨own.1.1, fun n member => ?_⟩, own.2⟩
    exact ih n member deeper (own.1.2 n member).name fun entry below =>
      inner.2 entry (List.mem_flatMap.mpr ⟨n, member, below⟩)

theorem filePlaces_in {f : File} (spelled : SpelledFile f) :
    ∀ p ∈ filePlaces f, p.In (packageName f) := by
  have top := spelled.top
  simp only [topNames, List.forall_mem_append, List.forall_mem_map] at top
  simp only [filePlaces, List.forall_mem_append, List.forall_mem_flatMap, List.forall_mem_map]
  refine ⟨fun m member => ?_, fun e member => ⟨rfl, by simp, top.2 e member⟩⟩
  exact placesIn_in (by simp) (top.1 m member) fun entry below =>
    spelled.inner entry (List.mem_flatMap.mpr ⟨m, member, below⟩)

end Source

section Set

variable {cx : FileContext} {visible : List String} {fileName : String}

/-- Conversion and the resolution of references keep every declaration in its place. -/
theorem visited_places (m : Message) (pkg path scope : String) (ancestors : List String) :
    (visited pkg ancestors (resolveMessage visible fileName scope (cx.convertMessage path m).1).1).map
      Declaration.place = placesIn pkg ancestors m := by
  induction m using Message.induction generalizing path scope ancestors with
  | step m ih =>
    rw [visited_eq, placesIn_eq, resolveMessage_fst, FileContext.convertMessage_fst]
    simp only [List.map_cons, List.map_append, List.flatMap_append, List.map_flatMap,
      List.flatMap_map, List.map_map, Option.getD_some, each]
    congr 3
    · rw [List.map_eq_flatMap]
      refine List.flatMap_congr fun mf _ => ?_
      rw [Function.comp_apply, visited_eq, resolveMessage_fst]
      rfl
    · exact List.flatMap_congr fun n member => ih n member _ _ _

theorem visitedFile_places (displayFloat : UInt64 → String) (files : List File) (f : File) :
    (visitedFile (resolvedFile displayFloat files f).1).map Declaration.place = filePlaces f := by
  have package : (f.package.map fun p => p.name).getD "" = packageName f := rfl
  simp only [visitedFile, filePlaces, resolvedFile, resolveReferences, resolveMessages_eq, compile,
    FileContext.convertMessages_eq, each, List.map_append, List.map_flatMap, List.flatMap_map,
    List.map_map, package]
  congr 1
  exact List.flatMap_congr fun m _ => visited_places m _ _ _ _

theorem visited_compileSet (displayFloat : UInt64 → String) (files : List File) :
    ((compileSet displayFloat files).set.file.flatMap visitedFile).map Declaration.place =
      files.flatMap filePlaces := by
  rw [compileSet_file, List.flatMap_map, List.map_flatMap]
  exact List.flatMap_congr fun f _ => visitedFile_places displayFloat files f

end Set

section Spelling

private theorem joined_scope (scope : String) :
    joined true (scopeChars scope) = joined true scope.toList := by
  unfold scopeChars
  split
  · rename_i none
    rw [none]
  · rename_i dot
    rw [dot]
    rfl
  · rename_i rest chars _
    rw [‹scope.toList = _›]
  · rfl

private theorem joined_foldl (pkg : String) (ancestors : List String) :
    joined true (ancestors.foldl qualify pkg).toList =
      joined true pkg.toList ++ ancestors.flatMap fun p => joined true p.toList := by
  induction ancestors generalizing pkg with
  | nil => simp
  | cons name rest ih =>
    rw [List.foldl_cons, ih, qualify_toList, joined_dot, joined_scope, List.flatMap_cons,
      List.append_assoc]

/-- The walk's spelling of a full name makes no difference to the Rust name. -/
theorem Place.rust_fqn (p : Place) : p.rust = toRustTypeName p.fqn := by
  rw [rust, full_eq, ← String.toList_inj, toRustTypeName_toList, toRustTypeName_toList, key, fqn,
    qualify_toList, joined_dot, joined_scope, scope, joined_foldl, List.cons_append, joined_dotted,
    List.take_length]
  simp

variable {pkg : String} {p : Place}

private theorem scopeChars_foldl {ancestors : List String} (around : ∀ name ∈ ancestors, Spelled name) :
    scopeChars (ancestors.foldl qualify pkg) =
      scopeChars pkg ++ ancestors.flatMap fun name => '.' :: name.toList := by
  induction ancestors generalizing pkg with
  | nil => simp
  | cons name rest ih =>
    rw [List.forall_mem_cons] at around
    rw [List.foldl_cons, ih around.2, scopeChars_qualify around.1.1, qualify_toList,
      List.flatMap_cons, List.append_assoc]

theorem Place.In.fqn_toList (inside : p.In pkg) (dotless : pkg.toList.head? ≠ some '.') :
    p.fqn.toList = (if pkg.toList = [] then [] else '.' :: pkg.toList) ++
      (p.ancestors ++ [p.name]).flatMap fun name => '.' :: name.toList := by
  rw [fqn, qualify_toList, scope, scopeChars_foldl inside.around, inside.pkg,
    Aligned.package dotless, List.flatMap_append, List.append_assoc]
  simp

theorem Place.key_toList (p : Place) (l : Nat) :
    (p.key l).toList = '.' :: p.pkg.toList ++
      (p.ancestors.take l ++ [p.name]).flatMap fun name => '.' :: name.toList := by
  rw [key, List.cons_append, dotted_toList, List.flatMap_cons]

/-- In a package, the walk's full name is the compiler's. -/
theorem Place.In.full_eq_fqn (inside : p.In pkg) (dotless : pkg.toList.head? ≠ some '.')
    (filled : pkg ≠ "") : p.full = p.fqn := by
  rw [← String.toList_inj, Place.full_eq, key_toList, inside.fqn_toList dotless, inside.pkg,
    List.take_length, if_neg]
  exact fun none => filled (String.toList_inj.mp none)

/-- Without a package, no declaration is registered under a top-level type's name. -/
theorem Place.In.unregistered (inside : p.In "") (top : p.ancestors = []) (q : Place) :
    ¬ q.Names p.fqn := by
  rintro ⟨l, _, same⟩
  have chars := congrArg String.toList same
  rw [key_toList, inside.fqn_toList (by decide), top, if_pos (by rfl), List.flatMap_append] at chars
  -- The key has a second dot, the name has none.
  simp only [List.nil_append, List.flatMap_cons, List.flatMap_nil, List.append_nil,
    List.cons_append, List.cons.injEq, true_and] at chars
  exact inside.name.2 (chars ▸ by simp)

theorem Place.In.fqn_head (inside : p.In pkg) (dotless : pkg.toList.head? ≠ some '.') :
    p.fqn.toList.head? = some '.' := by
  rw [inside.fqn_toList dotless]
  split
  · cases p.ancestors <;> rfl
  · rfl

/-- No bare name is a full name. -/
theorem Place.In.name_ne (inside : p.In pkg) {name : String} (full : name.toList.head? = some '.') :
    p.name ≠ name := by
  rintro rfl
  obtain ⟨c, rest, shape⟩ := List.exists_cons_of_ne_nil inside.name.1
  rw [shape] at full
  exact inside.name.2 (shape ▸ (Option.some.inj full) ▸ List.mem_cons_self)

end Spelling

end TptProto.Codegen
