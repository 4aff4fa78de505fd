import TptProto.Compiler.Restrictions

/-! How type references should be looked up, from the innermost scope outwards, and how the
compiler's lookup differs: it starts around the message whose field has the reference. -/

namespace TptProto.Compiler

open TptProto.Foundation TptProto.Descriptor TptProto.Language

section Rules

/-- The components of a scope's full name. -/
def pathOf (scope : String) : List (List Char) :=
  let chars := match scope.toList with
    | '.' :: rest => rest
    | other => other
  if chars.isEmpty then [] else splitDots chars

/-- A reference that does not start with a dot. -/
def Relative (reference : String) : Prop := reference.toList.head? ≠ some '.'

instance (reference : String) : Decidable (Relative reference) :=
  inferInstanceAs (Decidable (_ ≠ _))

/-- The declaration that a reference in a scope stands for: a name with a leading dot is
itself, another one is looked for in the scope and then in each enclosing one. -/
def lookup (declared : List String) (scope : List (List Char)) (reference : String) :
    Option String :=
  if Relative reference then
    ((prefixes scope).map fun outer => candidate outer reference).find? (· ∈ declared)
  else if reference ∈ declared then some reference
  else none

def lookupField (declared : List String) (fileName : String) (scope : List (List Char))
    (f : FieldDescriptorProto) : FieldDescriptorProto × Findings :=
  if isNamedType f.type then
    match f.typeName with
    | some reference =>
      match lookup declared scope reference with
      | some fqn => ({ f with typeName := some fqn }, [])
      | none =>
        (f, [.error .unknownType ("unknown type '" ++ reference ++ "' referenced by field '" ++
          f.name.getD "" ++ "'") none fileName])
    | none => (f, [])
  else (f, [])

mutual

/-- A message with its references looked up from its own scope. The entry of a map field has
no scope of its own: its references were written in the message around it. -/
def lookupMessage (declared : List String) (fileName : String) (scope : List (List Char)) :
    DescriptorProto → DescriptorProto × Findings
  | ⟨name, field, extension, nestedType, enumType, extensionRange, oneofDecl, options,
      reservedRange, reservedName⟩ =>
    let own := if options = some makeMapEntryOptions then scope else scope ++ [(name.getD "").toList]
    let fields := field.map (lookupField declared fileName own)
    let nested := lookupMessages declared fileName own nestedType
    (⟨name, fields.map Prod.fst, extension, nested.1, enumType, extensionRange, oneofDecl, options,
      reservedRange, reservedName⟩, fields.flatMap Prod.snd ++ nested.2)

def lookupMessages (declared : List String) (fileName : String) (scope : List (List Char)) :
    List DescriptorProto → List DescriptorProto × Findings
  | [] => ([], [])
  | m :: rest =>
    let first := lookupMessage declared fileName scope m
    let others := lookupMessages declared fileName scope rest
    (first.1 :: others.1, first.2 ++ others.2)

end

theorem lookupMessages_eq (declared : List String) (fileName : String) (scope : List (List Char))
    (ms : List DescriptorProto) :
    lookupMessages declared fileName scope ms =
      (ms.map fun m => (lookupMessage declared fileName scope m).1,
        ms.flatMap fun m => (lookupMessage declared fileName scope m).2) := by
  induction ms with
  | nil =>
    rw [lookupMessages]
    rfl
  | cons m rest ih =>
    rw [lookupMessages, ih]
    rfl

/-- The scope that a message opens. -/
def ownScope (scope : List (List Char)) (m : DescriptorProto) : List (List Char) :=
  if m.options = some makeMapEntryOptions then scope else scope ++ [(m.name.getD "").toList]

theorem lookupMessage_eq (declared : List String) (fileName : String) (scope : List (List Char))
    (m : DescriptorProto) :
    lookupMessage declared fileName scope m =
      ({ m with
          field := m.field.map fun f => (lookupField declared fileName (ownScope scope m) f).1
          nestedType := m.nestedType.map fun n =>
            (lookupMessage declared fileName (ownScope scope m) n).1 },
        m.field.flatMap (fun f => (lookupField declared fileName (ownScope scope m) f).2) ++
          m.nestedType.flatMap fun n =>
            (lookupMessage declared fileName (ownScope scope m) n).2) := by
  cases m
  simp only [lookupMessage, lookupMessages_eq, ownScope, List.map_map, List.flatMap_map,
    Function.comp_def]

end Rules

section Paths

theorem splitDots_ne_nil (name : List Char) : splitDots name ≠ [] := by
  cases name with
  | nil => simp [splitDots]
  | cons c rest =>
    rw [splitDots]
    split
    · simp
    · split <;> simp

theorem splitDots_dotless {name : List Char} (dotless : '.' ∉ name) : splitDots name = [name] := by
  induction name with
  | nil => rfl
  | cons c rest ih =>
    simp only [List.mem_cons, not_or] at dotless
    rw [splitDots, if_neg (Ne.symm dotless.1), ih dotless.2]

theorem splitDots_append (first second : List Char) :
    splitDots (first ++ '.' :: second) = splitDots first ++ splitDots second := by
  induction first with
  | nil => simp [splitDots]
  | cons c rest ih =>
    rw [List.cons_append, splitDots, splitDots, ih]
    split
    · rfl
    · cases parts : splitDots rest with
      | nil => exact absurd parts (splitDots_ne_nil rest)
      | cons part others => rfl

theorem splitDots_flatMap (name : List Char) :
    (splitDots name).flatMap (fun part => '.' :: part) = '.' :: name := by
  induction name with
  | nil => rfl
  | cons c rest ih =>
    rw [splitDots]
    split
    · rename_i dot
      rw [List.flatMap_cons, ih, dot]
      rfl
    · split
      · rename_i none
        exact absurd none (splitDots_ne_nil rest)
      · rename_i part others parts
        rw [parts, List.flatMap_cons, List.cons_append] at ih
        rw [List.flatMap_cons, List.cons_append, List.cons_append, (List.cons.inj ih).2]

theorem pathOf_eq (scope : String) :
    (scopeChars scope = [] ∧ pathOf scope = []) ∨
      ∃ rest, scopeChars scope = '.' :: rest ∧ pathOf scope = splitDots rest := by
  unfold scopeChars pathOf
  split
  · rename_i none
    exact .inl ⟨rfl, by simp [none]⟩
  · rename_i dot
    exact .inl ⟨rfl, by simp [dot]⟩
  · rename_i rest chars more
    refine .inr ⟨rest, rfl, ?_⟩
    cases rest with
    | nil => exact absurd rfl chars
    | cons c tail => simp [more]
  · rename_i other _ dotted
    refine .inr ⟨scope.toList, rfl, ?_⟩
    split
    · rename_i rest chars
      exact absurd chars (dotted rest)
    · cases chars : scope.toList with
      | nil => exact absurd chars other
      | cons c tail => rfl

theorem pathOf_flatMap (scope : String) :
    (pathOf scope).flatMap (fun part => '.' :: part) = scopeChars scope := by
  rcases pathOf_eq scope with ⟨none, path⟩ | ⟨rest, chars, path⟩
  · rw [none, path]
    rfl
  · rw [chars, path, splitDots_flatMap]

theorem pathOf_qualify {scope name : String} (spelled : Spelled name) :
    pathOf (qualify scope name) = pathOf scope ++ [name.toList] := by
  have own : scopeChars (qualify scope name) = (qualify scope name).toList :=
    scopeChars_qualify spelled.1
  rw [qualify_toList] at own
  rcases pathOf_eq (qualify scope name) with ⟨none, _⟩ | ⟨rest, chars, path⟩
  · rw [own] at none
    exact absurd none (by simp)
  · rw [path]
    rw [own] at chars
    rcases pathOf_eq scope with ⟨none, outer⟩ | ⟨tail, more, outer⟩
    · rw [none] at chars
      rw [outer, ← (List.cons.inj chars).2, splitDots_dotless spelled.2]
      rfl
    · rw [more, List.cons_append] at chars
      rw [outer, ← (List.cons.inj chars).2, splitDots_append, splitDots_dotless spelled.2]

theorem candidates_eq (reference scope : String) :
    candidates reference scope = (prefixes (pathOf scope)).map fun outer => candidate outer reference :=
  rfl

theorem candidate_pathOf (scope reference : String) :
    candidate (pathOf scope) reference = qualify scope reference := by
  rw [← String.toList_inj, qualify_toList, candidate, String.toList_ofList, pathOf_flatMap]

theorem prefixes_concat {α : Type} (parts : List α) (last : α) :
    prefixes (parts ++ [last]) = (parts ++ [last]) :: prefixes parts := by
  unfold prefixes
  rw [List.length_append, List.length_singleton, List.range_succ, List.reverse_append,
    List.reverse_singleton, List.singleton_append, List.map_cons]
  congr 1
  · exact List.take_of_length_le (by simp)
  · refine List.map_congr_left fun i member => ?_
    rw [List.mem_reverse, List.mem_range] at member
    rw [List.take_append_of_le_length (by omega)]

/-- No candidate of a shorter scope is that of the scope itself. -/
theorem candidate_longer {parts outer : List (List Char)} {last : List Char} {reference : String}
    (member : outer ∈ prefixes parts) :
    candidate outer reference ≠ candidate (parts ++ [last]) reference := by
  obtain ⟨i, _, rfl⟩ := List.mem_map.mp member
  intro same
  have chars := congrArg (fun s => (String.toList s).length) same
  simp only [candidate, String.toList_ofList, List.length_append, List.length_cons,
    List.flatMap_append, List.flatMap_singleton] at chars
  have shorter : ((parts.take i).flatMap (fun part => '.' :: part)).length ≤
      (parts.flatMap fun part => '.' :: part).length := by
    conv => rhs; rw [← List.take_append_drop i parts, List.flatMap_append, List.length_append]
    exact Nat.le_add_right _ _
  omega

end Paths

section Fields

variable {declared : List String} {fileName scope name : String}

/-- The lookup from around a message agrees with that from its own scope exactly if the
message itself does not declare the name. -/
theorem resolveTypeName_eq_lookup {reference : String} :
    resolveTypeName reference scope declared =
        lookup declared (pathOf scope ++ [name.toList]) reference ↔
      (Relative reference → candidate (pathOf scope ++ [name.toList]) reference ∉ declared) := by
  unfold resolveTypeName lookup
  by_cases relative : Relative reference
  · rw [if_neg relative, if_pos relative, candidates_eq, prefixes_concat, List.map_cons,
      List.find?_cons]
    by_cases known : candidate (pathOf scope ++ [name.toList]) reference ∈ declared
    · simp only [known, decide_true, relative, not_true_eq_false, imp_false, iff_false]
      intro found
      have chosen := List.mem_of_find?_eq_some found
      obtain ⟨outer, member, same⟩ := List.mem_map.mp chosen
      exact candidate_longer member same
    · simp [known]
  · rw [if_pos (Decidable.not_not.mp relative), if_neg relative]
    simp [relative]

/-- A relative reference is resolved to a name that differs from it. -/
theorem lookup_ne_reference {path : List (List Char)} {reference fqn : String}
    (relative : Relative reference) (found : lookup declared path reference = some fqn) :
    fqn ≠ reference := by
  rw [lookup, if_pos relative] at found
  obtain ⟨outer, _, rfl⟩ := List.mem_map.mp (List.mem_of_find?_eq_some found)
  intro same
  rw [← same] at relative
  refine relative ?_
  rw [candidate, String.toList_ofList]
  cases outer <;> rfl

/-- A field whose reference the message's own scope declares. -/
def Captured (declared : List String) (path : List (List Char)) (f : FieldDescriptorProto) : Prop :=
  isNamedType f.type = true ∧ ∃ reference, f.typeName = some reference ∧ Relative reference ∧
    candidate path reference ∈ declared

theorem resolveFieldType_eq_lookupField {f : FieldDescriptorProto}
    (free : ¬ Captured declared (pathOf scope ++ [name.toList]) f) :
    resolveFieldType scope declared fileName f =
      lookupField declared fileName (pathOf scope ++ [name.toList]) f := by
  unfold resolveFieldType lookupField
  split
  · rename_i named
    cases reference : f.typeName with
    | none => rfl
    | some reference' =>
      have same := resolveTypeName_eq_lookup.mpr fun relative known =>
        free ⟨named, reference', reference, relative, known⟩
      simp only [same]
      all_goals rfl
  · rfl

theorem resolveFieldType_ne_of_captured {f : FieldDescriptorProto}
    (captured : Captured declared (pathOf scope ++ [name.toList]) f) :
    (resolveFieldType scope declared fileName f).1 ≠
      (lookupField declared fileName (pathOf scope ++ [name.toList]) f).1 := by
  obtain ⟨named, reference, typeName, relative, known⟩ := captured
  have found : lookup declared (pathOf scope ++ [name.toList]) reference =
      some (candidate (pathOf scope ++ [name.toList]) reference) := by
    rw [lookup, if_pos relative, prefixes_concat, List.map_cons, List.find?_cons]
    simp [known]
  have differs : resolveTypeName reference scope declared ≠
      some (candidate (pathOf scope ++ [name.toList]) reference) := by
    intro same
    exact resolveTypeName_eq_lookup.mp (same.trans found.symm) relative known
  intro same
  have names := congrArg FieldDescriptorProto.typeName same
  unfold resolveFieldType lookupField at names
  simp only [named, ↓reduceIte, typeName, found] at names
  cases resolved : resolveTypeName reference scope declared with
  | none =>
    rw [resolved] at names
    simp only [typeName] at names
    exact lookup_ne_reference relative found (Option.some.inj names).symm
  | some fqn =>
    rw [resolved] at names
    exact differs (resolved.trans names)

end Fields

section Messages

/-- The message around a field declares, among its nested types, the name that the field
refers to. -/
def Shadows (declared : List String) (scope : String) (m : Message) : Prop :=
  ∃ f ∈ members m ++ m.fields, ∃ ident, f.ty = .named ident ∧ Relative ident.name ∧
    qualify (qualify scope m.name.name) ident.name ∈ declared

variable {cx : FileContext} {declared : List String} {fileName : String}

theorem ownFields_types (path : String) (m : Message) :
    (cx.ownFields path m).1.map (fun f => (f.type, f.typeName)) =
      (members m ++ m.fields).map (fun f =>
        (some (cx.resolveType f.ty).1, (cx.resolveType f.ty).2)) ++
      m.maps.map fun mf => (some .message, some ("." ++ FileContext.selfPath path m.name.name ++
        "." ++ FileContext.entryName mf)) := by
  have ofOneofs : ∀ (oneofs : List Oneof) (index : Nat),
      (cx.convertOneofs index oneofs).1.map (fun f => (f.type, f.typeName)) =
        (oneofs.flatMap fun o => o.fields).map fun f =>
          (some (cx.resolveType f.ty).1, (cx.resolveType f.ty).2) := by
    intro oneofs
    induction oneofs with
    | nil => intro index; rfl
    | cons o rest ih =>
      intro index
      rw [FileContext.convertOneofs, List.map_append, ih, List.flatMap_cons, List.map_append]
      simp only [each, List.map_map]
      rfl
  simp only [FileContext.ownFields, List.map_append, ofOneofs, members, each, List.map_map]
  rfl

theorem named_of_resolveType {ty : TypeRef} {enumNames msgNames : List String} :
    isNamedType (some (resolveType ty enumNames msgNames).1) = true ↔ ∃ ident, ty = .named ident := by
  cases ty with
  | scalar s => cases s <;> simp [resolveType, scalarToFieldType, isNamedType]
  | named ident =>
    simp only [resolveType, TypeRef.named.injEq, exists_eq', iff_true]
    repeat' split
    all_goals rfl

theorem captured_iff {path scope : String} {m : Message} (spelled : Spelled m.name.name) :
    (∃ f ∈ (cx.ownFields path m).1, Captured declared (pathOf scope ++ [m.name.name.toList]) f) ↔
      Shadows declared scope m := by
  have own : ∀ reference, candidate (pathOf scope ++ [m.name.name.toList]) reference =
      qualify (qualify scope m.name.name) reference := by
    intro reference
    rw [← pathOf_qualify spelled, candidate_pathOf]
  have viaTypes : (∃ f ∈ (cx.ownFields path m).1,
      Captured declared (pathOf scope ++ [m.name.name.toList]) f) ↔
      ∃ entry ∈ (cx.ownFields path m).1.map (fun f => (f.type, f.typeName)),
        isNamedType entry.1 = true ∧ ∃ reference, entry.2 = some reference ∧ Relative reference ∧
          qualify (qualify scope m.name.name) reference ∈ declared := by
    simp only [Captured, own, List.mem_map, exists_exists_and_eq_and]
  rw [viaTypes, ownFields_types]
  constructor
  · rintro ⟨entry, member, named, reference, typeName, relative, known⟩
    rcases List.mem_append.mp member with field | map
    · obtain ⟨f, inside, rfl⟩ := List.mem_map.mp field
      obtain ⟨ident, ty⟩ := named_of_resolveType.mp named
      simp only [ty, FileContext.resolveType, resolveType, Option.some.injEq] at typeName
      subst typeName
      exact ⟨f, inside, ident, ty, relative, known⟩
    · obtain ⟨mf, _, rfl⟩ := List.mem_map.mp map
      rw [← Option.some.inj typeName] at relative
      simp [Relative] at relative
  · rintro ⟨f, inside, ident, ty, relative, known⟩
    refine ⟨_, List.mem_append_left _ (List.mem_map_of_mem inside), ?_, ident.name, ?_, relative,
      known⟩
    · exact named_of_resolveType.mpr ⟨ident, ty⟩
    · simp [ty, FileContext.resolveType, resolveType]

theorem convertMessage_options (path : String) (m : Message) :
    (cx.convertMessage path m).1.options = none := by
  rw [FileContext.convertMessage_fst]

theorem ownScope_convert {path scope : String} {m : Message} (spelled : Spelled m.name.name) :
    ownScope (pathOf scope) (cx.convertMessage path m).1 = pathOf (qualify scope m.name.name) := by
  rw [ownScope, convertMessage_options, pathOf_qualify spelled, FileContext.convertMessage_fst]
  rfl

theorem convertEntry_lookup (scope : String) (mf : MapField) :
    resolveMessage declared fileName scope (cx.convertEntry mf) =
      lookupMessage declared fileName (pathOf scope) (cx.convertEntry mf) := by
  have fields : ∀ f, resolveFieldType scope declared fileName f =
      lookupField declared fileName (pathOf scope) f := by
    intro f
    unfold resolveFieldType lookupField
    have same : ∀ reference, resolveTypeName reference scope declared =
        lookup declared (pathOf scope) reference := by
      intro reference
      unfold resolveTypeName lookup Relative
      split <;> simp_all [candidates_eq]
    simp only [same]
    all_goals rfl
  refine Prod.ext ?_ ?_
  · rw [resolveMessage_fst, lookupMessage_eq]
    simp only [fields, ownScope, FileContext.convertEntry, ↓reduceIte, List.map_nil]
  · rw [resolveMessage_snd, lookupMessage_eq]
    simp only [fields, ownScope, FileContext.convertEntry, ↓reduceIte, List.flatMap_nil]

/-- The descriptors are those of the rules only if no message shadows; then the errors are
those of the rules too. -/
theorem convertMessage_lookup (cx : FileContext) (declared : List String) (fileName : String)
    {m : Message} (path scope : String) (spelled : Spelled m.name.name)
    (inner : ∀ entry ∈ within scope m, ∀ name ∈ localNames entry.2, Spelled name) :
    ((resolveMessage declared fileName scope (cx.convertMessage path m).1).1 =
        (lookupMessage declared fileName (pathOf scope) (cx.convertMessage path m).1).1 →
      ∀ entry ∈ within scope m, ¬ Shadows declared entry.1 entry.2) ∧
    ((∀ entry ∈ within scope m, ¬ Shadows declared entry.1 entry.2) →
      resolveMessage declared fileName scope (cx.convertMessage path m).1 =
        lookupMessage declared fileName (pathOf scope) (cx.convertMessage path m).1) := by
  induction m using Message.induction generalizing path scope with
  | step m ih =>
    have nested := fun (path : String) n (member : n ∈ m.nestedMessages) => by
      rw [within_eq] at inner
      refine ih n member path (qualify scope m.name.name)
        (inner _ List.mem_cons_self n.name.name ?_) fun entry below =>
          inner entry (List.mem_cons_of_mem _ (List.mem_flatMap.mpr ⟨n, member, below⟩))
      simp only [localNames, List.mem_append, List.mem_map]
      exact .inl (.inr ⟨n, member, rfl⟩)
    rw [within_eq, List.forall_mem_cons]
    simp only [List.forall_mem_flatMap]
    constructor
    · intro same
      rw [resolveMessage_fst, lookupMessage_eq, ownScope_convert spelled,
        FileContext.convertMessage_fst] at same
      have fields := List.map_inj_left.mp (congrArg DescriptorProto.field same)
      have below := List.map_inj_left.mp (congrArg DescriptorProto.nestedType same)
      simp only [Option.getD_some] at below
      refine ⟨fun shadows => ?_, fun n member => ?_⟩
      · obtain ⟨f, inside, captured⟩ := (captured_iff spelled).mpr shadows
        have equal := fields f inside
        rw [pathOf_qualify spelled] at equal
        exact resolveFieldType_ne_of_captured captured equal
      · exact (nested _ n member).1
          (below _ (List.mem_append_right _ (List.mem_map_of_mem member)))
    · rintro ⟨free, deeper⟩
      have fields : ∀ f ∈ (cx.ownFields path m).1, resolveFieldType scope declared fileName f =
          lookupField declared fileName (pathOf (qualify scope m.name.name)) f := by
        intro f inside
        rw [pathOf_qualify spelled]
        exact resolveFieldType_eq_lookupField fun captured =>
          free ((captured_iff spelled).mp ⟨f, inside, captured⟩)
      have below : ∀ n ∈ m.maps.map cx.convertEntry ++ m.nestedMessages.map (fun n =>
          (cx.convertMessage (FileContext.selfPath path m.name.name) n).1),
          resolveMessage declared fileName (qualify scope m.name.name) n =
            lookupMessage declared fileName (pathOf (qualify scope m.name.name)) n := by
        intro n inside
        rcases List.mem_append.mp inside with entry | message
        · obtain ⟨mf, _, rfl⟩ := List.mem_map.mp entry
          exact convertEntry_lookup _ mf
        · obtain ⟨source, member, rfl⟩ := List.mem_map.mp message
          exact (nested _ source member).2 (deeper source member)
      refine Prod.ext ?_ ?_
      · rw [resolveMessage_fst, lookupMessage_eq, ownScope_convert spelled,
          FileContext.convertMessage_fst]
        simp only [Option.getD_some, List.map_congr_left fun f inside =>
          congrArg Prod.fst (fields f inside), List.map_congr_left fun n inside =>
          congrArg Prod.fst (below n inside)]
      · rw [resolveMessage_snd, lookupMessage_eq, ownScope_convert spelled,
          FileContext.convertMessage_fst]
        simp only [Option.getD_some, List.flatMap_congr fun f inside =>
          congrArg Prod.snd (fields f inside), List.flatMap_congr fun n inside =>
          congrArg Prod.snd (below n inside)]

end Messages

/-- The compiled messages of a file are those that the scoping rules give, and so are the
errors that their references make. -/
def ScopedRight (displayFloat : UInt64 → String) (files : List File) (f : File) : Prop :=
  resolveMessages (namesSeenBy displayFloat files f) f.name (packageName f)
      (compile displayFloat f).1.messageType =
    lookupMessages (namesSeenBy displayFloat files f) f.name (pathOf (packageName f))
      (compile displayFloat f).1.messageType

/-- References are looked up by the scoping rules exactly if no message declares, among its
nested types, a name that one of its fields refers to without a leading dot. The names seen
are those declared in the file and in the files visible to it. -/
theorem scopedRight_iff (displayFloat : UInt64 → String) (files : List File)
    (spelled : ∀ f ∈ files, SpelledFile f) :
    ((∀ f ∈ files, ScopedRight displayFloat files f) ↔
      ∀ f ∈ files, ∀ entry ∈ fileMessages f,
        ¬ Shadows (namesSeenBy displayFloat files f) entry.1 entry.2) ∧
    ((files.map File.name).Nodup →
      (∀ name, ¬ Relation.TransGen (Imports (indexFiles files).1) name name) →
      ∀ f ∈ files, ∀ name, name ∈ namesSeenBy displayFloat files f ↔
        name ∈ declaredNames f ∨
          ∃ g ∈ files, Sees (indexFiles files).1 f.name g.name ∧ name ∈ declaredNames g) := by
  refine ⟨forall₂_congr fun f member => ?_,
    fun distinct acyclic f member name => mem_namesSeenBy_sees distinct acyclic member⟩
  have top : ∀ m ∈ f.messages, Spelled m.name.name := fun m inside =>
    (spelled f member).top _ (List.mem_append_left _ (List.mem_map_of_mem inside))
  have each := fun m (inside : m ∈ f.messages) =>
    convertMessage_lookup (fileContext displayFloat f) (namesSeenBy displayFloat files f) f.name
      (packageName f) (packageName f) (top m inside)
      fun entry below => (spelled f member).inner entry (List.mem_flatMap.mpr ⟨m, inside, below⟩)
  have messages : (compile displayFloat f).1.messageType = f.messages.map fun m =>
      ((fileContext displayFloat f).convertMessage (packageName f) m).1 := by
    simp only [compile, FileContext.convertMessages_eq]
    rfl
  rw [ScopedRight, messages, resolveMessages_eq, lookupMessages_eq, fileMessages]
  simp only [List.map_map, List.flatMap_map, Function.comp_def, List.forall_mem_flatMap]
  constructor
  · intro same m inside
    exact (each m inside).1 (List.map_inj_left.mp (congrArg Prod.fst same) m inside)
  · intro free
    refine Prod.ext ?_ ?_
    · exact List.map_congr_left fun m inside =>
        congrArg Prod.fst ((each m inside).2 (free m inside))
    · exact List.flatMap_congr fun m inside =>
        congrArg Prod.snd ((each m inside).2 (free m inside))

/-- `message Inner {} message M { message Inner {} Inner a = 1; }` in proto3. -/
def shadowingFile : File where
  name := "a.proto"
  syntaxDecl := some ⟨{}, "proto3"⟩
  messages := [emptyMessage "Inner", { emptyMessage "M" with
    fields := [⟨{}, ⟨"a", {}⟩, 1, .named ⟨"Inner", {}⟩, .singular, none, none, []⟩]
    nestedMessages := [emptyMessage "Inner"] }]

theorem scopedRight_iff_shadowing :
    (∀ f ∈ [shadowingFile], ScopedRight (fun _ => "") [shadowingFile] f) ↔
      ∀ f ∈ [shadowingFile], ∀ entry ∈ fileMessages f,
        ¬ Shadows (namesSeenBy (fun _ => "") [shadowingFile] f) entry.1 entry.2 :=
  (scopedRight_iff (fun _ => "") [shadowingFile] fun f member => by
    rw [List.mem_singleton.mp member]
    exact ⟨by decide +kernel, by decide +kernel, by decide +kernel⟩).1

theorem not_scopedRight :
    ¬ ∀ (displayFloat : UInt64 → String) (files : List File), (∀ f ∈ files, SpelledFile f) →
      ∀ f ∈ files, ScopedRight displayFloat files f := by
  intro right
  have same := right (fun _ => "") [shadowingFile] (fun f member => by
    rw [List.mem_singleton.mp member]
    exact ⟨by decide +kernel, by decide +kernel, by decide +kernel⟩) shadowingFile List.mem_cons_self
  have references := congrArg (fun resolved => resolved.1.map fun m =>
    m.field.map fun f => f.typeName) same
  revert references
  decide +kernel

end TptProto.Compiler
