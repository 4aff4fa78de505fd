import TptProto.Compiler.Scoping

/-! Whether a field's type is recorded as an enum or as a message. The kind is decided by the
simple name of the reference alone, from the enums of the file itself. -/

namespace TptProto.Compiler

open TptProto.Foundation TptProto.Descriptor TptProto.Language
open FileContext (entryName)

section Declarations

/-- The full names of a message and of its map entries. -/
def messagesOf (entry : String × Message) : List String :=
  qualify entry.1 entry.2.name.name ::
    entry.2.maps.map fun mf => qualify (qualify entry.1 entry.2.name.name) (entryName mf)

/-- The full names of the enums in a message. -/
def enumsOf (entry : String × Message) : List String :=
  entry.2.nestedEnums.map fun e => qualify (qualify entry.1 entry.2.name.name) e.name.name

/-- The full names of a file's messages and map entries. -/
def declaredMessages (f : File) : List String := (fileMessages f).flatMap messagesOf

/-- The full names of a file's enums. -/
def declaredEnums (f : File) : List String :=
  (fileMessages f).flatMap enumsOf ++ f.enums.map fun e => qualify (packageName f) e.name.name

def DeclaredMessage (files : List File) (fqn : String) : Prop := ∃ f ∈ files, fqn ∈ declaredMessages f

def DeclaredEnum (files : List File) (fqn : String) : Prop := ∃ f ∈ files, fqn ∈ declaredEnums f

/-- A field is an enum if its type name is declared as one, and a message likewise. -/
def KindRight (files : List File) (field : FieldDescriptorProto) : Prop :=
  ∀ fqn, field.typeName = some fqn →
    (field.type = some .enum ↔ DeclaredEnum files fqn) ∧
      (field.type = some .message ↔ DeclaredMessage files fqn)

/-- Every field with a named type has the right kind. -/
def KindsRight (displayFloat : UInt64 → String) (files : List File) : Prop :=
  ∀ fd ∈ (compileSet displayFloat files).set.file, ∀ entry ∈ fileDescriptors fd,
    ∀ field ∈ entry.2.field, isNamedType field.type = true → KindRight files field

private theorem mem_flatMap_declaredIn {ms : List Message} {scope fqn : String}
    (each : ∀ n ∈ ms, fqn ∈ declaredIn scope n ↔
      fqn ∈ (within scope n).flatMap messagesOf ∨ fqn ∈ (within scope n).flatMap enumsOf) :
    fqn ∈ ms.flatMap (declaredIn scope) ↔
      fqn ∈ (ms.flatMap (within scope)).flatMap messagesOf ∨
        fqn ∈ (ms.flatMap (within scope)).flatMap enumsOf := by
  rw [List.flatMap_assoc, List.flatMap_assoc, List.mem_flatMap, List.mem_flatMap, List.mem_flatMap,
    ← exists_or]
  refine exists_congr fun n => ?_
  rw [← and_or_left]
  exact and_congr_right (each n)

private theorem mem_declaredIn {m : Message} {scope fqn : String} :
    fqn ∈ declaredIn scope m ↔
      fqn ∈ (within scope m).flatMap messagesOf ∨ fqn ∈ (within scope m).flatMap enumsOf := by
  induction m using Message.induction generalizing scope with
  | step m ih =>
    have nested : fqn ∈ m.nestedMessages.flatMap (declaredIn (qualify scope m.name.name)) ↔ _ :=
      mem_flatMap_declaredIn fun n member => ih n member
    have own : fqn ∈ declaredIn scope m ↔ fqn ∈ messagesOf (scope, m) ∨ fqn ∈ enumsOf (scope, m) ∨
        fqn ∈ m.nestedMessages.flatMap (declaredIn (qualify scope m.name.name)) := by
      rw [declaredIn_eq]
      simp only [messagesOf, enumsOf, List.mem_cons, List.mem_append, or_assoc]
      refine or_congr_right (or_congr_right or_comm)
    rw [own, nested, within_eq, List.flatMap_cons, List.flatMap_cons, List.mem_append, List.mem_append]
    constructor
    · rintro (message | enum | message | enum)
      · exact .inl (.inl message)
      · exact .inr (.inl enum)
      · exact .inl (.inr message)
      · exact .inr (.inr enum)
    · rintro ((message | message) | enum | enum)
      · exact .inl message
      · exact .inr (.inr (.inl message))
      · exact .inr (.inl enum)
      · exact .inr (.inr (.inr enum))

theorem mem_declaredNames {f : File} {fqn : String} :
    fqn ∈ declaredNames f ↔ fqn ∈ declaredMessages f ∨ fqn ∈ declaredEnums f := by
  rw [declaredNames, List.mem_append, mem_flatMap_declaredIn fun _ _ => mem_declaredIn,
    declaredMessages, declaredEnums, List.mem_append, or_assoc]
  rfl

/-- What a file sees is declared as a message or as an enum. -/
theorem declared_of_seen {displayFloat : UInt64 → String} {files : List File} {f : File} {fqn : String}
    (seen : fqn ∈ namesSeenBy displayFloat files f) :
    DeclaredMessage files fqn ∨ DeclaredEnum files fqn := by
  obtain ⟨g, member, declared⟩ : ∃ g ∈ files, fqn ∈ declaredNames g := by
    rcases mem_namesSeenBy.mp seen with ⟨g, member, _, declared⟩ | ⟨_, _, g, member, _, declared⟩
    · exact ⟨g, member, declared⟩
    · exact ⟨g, member, declared⟩
  rcases mem_declaredNames.mp declared with message | enum
  · exact .inl ⟨g, member, message⟩
  · exact .inr ⟨g, member, enum⟩

end Declarations

section References

variable {displayFloat : UInt64 → String} {files : List File} {f : File}

/-- The simple name of a reference is that of an enum of the file exactly if the reference
resolves to an enum, which is not also declared as a message. -/
def ReferenceRight (displayFloat : UInt64 → String) (files : List File) (f : File) (scope : String)
    (ty : TypeRef) : Prop :=
  ∀ ident, ty = .named ident → ∀ fqn,
    resolveTypeName ident.name scope (namesSeenBy displayFloat files f) = some fqn →
      (simpleName ident.name ∈ collectEnumNames f ↔ DeclaredEnum files fqn) ∧
        ¬ (DeclaredEnum files fqn ∧ DeclaredMessage files fqn)

/-- The references of a message are right, and no entry of its maps is also an enum. -/
structure KindsAgree (displayFloat : UInt64 → String) (files : List File) (f : File)
    (scope : String) (m : Message) : Prop where
  fields : ∀ field ∈ members m ++ m.fields, ReferenceRight displayFloat files f scope field.ty
  maps : ∀ mf ∈ m.maps,
    ReferenceRight displayFloat files f (qualify scope m.name.name) mf.key ∧
      ReferenceRight displayFloat files f (qualify scope m.name.name) mf.value
  entries : ∀ mf ∈ m.maps,
    ¬ DeclaredEnum files (qualify (qualify scope m.name.name) (entryName mf))

theorem resolveTypeName_seen {declared : List String} {reference scope fqn : String}
    (found : resolveTypeName reference scope declared = some fqn) : fqn ∈ declared := by
  unfold resolveTypeName at found
  split at found
  · split at found
    · cases found
      assumption
    · cases found
  · simpa using List.find?_some found

/-- A field of the descriptor whose type and type name come from a reference. -/
theorem resolved_kind_iff {field : FieldDescriptorProto} {scope : String} {ty : TypeRef}
    (kind : field.type = some ((fileContext displayFloat f).resolveType ty).1)
    (named : field.typeName = ((fileContext displayFloat f).resolveType ty).2)
    (silent : NoErrors
      (resolveFieldType scope (namesSeenBy displayFloat files f) f.name field).2) :
    (isNamedType field.type = true → KindRight files
        (resolveFieldType scope (namesSeenBy displayFloat files f) f.name field).1) ↔
      ReferenceRight displayFloat files f scope ty := by
  have none := (resolveFieldType_errors _ _ _ _).eq_nil silent
  cases ty with
  | scalar s =>
    constructor
    · intro _ ident impossible
      cases impossible
    · intro _ isNamed
      rw [kind] at isNamed
      obtain ⟨ident, impossible⟩ := named_of_resolveType.mp isNamed
      cases impossible
  | named ident =>
    have isNamed : isNamedType field.type = true := by
      rw [kind]
      exact named_of_resolveType.mpr ⟨ident, rfl⟩
    have reference : field.typeName = some ident.name := by
      rw [named]
      rfl
    have enum : field.type = some .enum ↔ simpleName ident.name ∈ collectEnumNames f := by
      rw [kind]
      simp only [FileContext.resolveType, resolveType, fileContext, List.contains_eq_mem]
      split <;> simp_all
    have message : field.type = some .message ↔ simpleName ident.name ∉ collectEnumNames f := by
      rw [kind]
      simp only [FileContext.resolveType, resolveType, fileContext, List.contains_eq_mem]
      split <;> simp_all
    simp only [resolveFieldType, isNamed, ↓reduceIte, reference] at none ⊢
    cases resolved : resolveTypeName ident.name scope (namesSeenBy displayFloat files f) with
    | none =>
      rw [resolved] at none
      cases none
    | some fqn =>
      have declared := declared_of_seen (resolveTypeName_seen resolved)
      have right : KindRight files { field with typeName := some fqn } ↔
          (simpleName ident.name ∈ collectEnumNames f ↔ DeclaredEnum files fqn) ∧
            ¬ (DeclaredEnum files fqn ∧ DeclaredMessage files fqn) := by
        simp only [KindRight, Option.some.injEq, forall_eq', enum, message]
        tauto
      simp only [forall_const, right, ReferenceRight, TypeRef.named.injEq, forall_eq', resolved,
        Option.some.injEq]

/-- The field of a map: its type is named by the entry's full name. -/
theorem resolved_entry_iff {field : FieldDescriptorProto} {scope fqn : String}
    (kind : field.type = some .message) (named : field.typeName = some fqn)
    (absolute : ¬ Relative fqn)
    (silent : NoErrors
      (resolveFieldType scope (namesSeenBy displayFloat files f) f.name field).2) :
    (isNamedType field.type = true → KindRight files
        (resolveFieldType scope (namesSeenBy displayFloat files f) f.name field).1) ↔
      ¬ DeclaredEnum files fqn := by
  have none := (resolveFieldType_errors _ _ _ _).eq_nil silent
  have isNamed : isNamedType field.type = true := by
    rw [kind]
    rfl
  simp only [resolveFieldType, isNamed, ↓reduceIte, named] at none ⊢
  cases resolved : resolveTypeName fqn scope (namesSeenBy displayFloat files f) with
  | none =>
    rw [resolved] at none
    cases none
  | some other =>
    have seen := resolveTypeName_seen resolved
    have same : other = fqn := by
      unfold resolveTypeName at resolved
      rw [if_pos (Decidable.not_not.mp absolute)] at resolved
      split at resolved
      · exact (Option.some.inj resolved).symm
      · cases resolved
    subst same
    have declared := declared_of_seen seen
    simp only [forall_const, KindRight, Option.some.injEq, forall_eq', kind, reduceCtorEq,
      false_iff, true_iff]
    exact ⟨fun both => both.1, fun noEnum => ⟨noEnum, declared.resolve_right noEnum⟩⟩

/-- The path of the conversion names the scope of the symbols. -/
def Aligned (path scope : String) : Prop :=
  scopeChars scope = if path.toList = [] then [] else '.' :: path.toList

theorem Aligned.package {name : String} (dotless : name.toList.head? ≠ some '.') :
    Aligned name name := by
  unfold Aligned scopeChars
  split <;> simp_all

theorem Aligned.own {path scope name : String} (aligned : Aligned path scope)
    (filled : name.toList ≠ []) :
    Aligned (FileContext.selfPath path name) (qualify scope name) := by
  rw [Aligned, scopeChars_qualify filled, qualify_toList, aligned, FileContext.selfPath]
  by_cases empty : path.toList = []
  · have none : path = "" := String.toList_inj.mp empty
    subst none
    simp [filled]
  · have some : path.isEmpty = false := by
      rw [Bool.eq_false_iff, ne_eq, String.isEmpty_iff]
      intro none
      rw [none] at empty
      exact empty rfl
    simp [empty, some]

theorem Aligned.entry {path scope name : String} (aligned : Aligned path scope)
    (filled : path.toList ≠ []) : "." ++ path ++ "." ++ name = qualify scope name := by
  rw [← String.toList_inj, qualify_toList, aligned, if_neg filled]
  simp

theorem selfPath_filled {path name : String} (filled : name.toList ≠ []) :
    (FileContext.selfPath path name).toList ≠ [] := by
  unfold FileContext.selfPath
  split
  · exact filled
  · simp

/-- A property of items that their keys determine, when the keys come from two lists. -/
private theorem forall_of_map_append {α β γ κ : Type} {items : List α} {first : List β}
    {second : List γ} {key : α → κ} {ofFirst : β → κ} {ofSecond : γ → κ} {Holds : α → Prop}
    {First : β → Prop} {Second : γ → Prop}
    (keys : items.map key = first.map ofFirst ++ second.map ofSecond)
    (left : ∀ x ∈ items, ∀ a, key x = ofFirst a → (Holds x ↔ First a))
    (right : ∀ x ∈ items, ∀ b, key x = ofSecond b → (Holds x ↔ Second b)) :
    (∀ x ∈ items, Holds x) ↔ (∀ a ∈ first, First a) ∧ ∀ b ∈ second, Second b := by
  have origin : ∀ k, (∃ x ∈ items, key x = k) ↔
      (∃ a ∈ first, ofFirst a = k) ∨ ∃ b ∈ second, ofSecond b = k := by
    intro k
    rw [← List.mem_map, ← List.mem_map, ← List.mem_map, ← List.mem_append, keys]
  constructor
  · intro holds
    refine ⟨fun a member => ?_, fun b member => ?_⟩
    · obtain ⟨x, inside, same⟩ := (origin _).mpr (.inl ⟨a, member, rfl⟩)
      exact (left x inside a same).mp (holds x inside)
    · obtain ⟨x, inside, same⟩ := (origin _).mpr (.inr ⟨b, member, rfl⟩)
      exact (right x inside b same).mp (holds x inside)
  · rintro ⟨ofLeft, ofRight⟩ x inside
    rcases (origin _).mp ⟨x, inside, rfl⟩ with ⟨a, member, same⟩ | ⟨b, member, same⟩
    · exact (left x inside a same.symm).mpr (ofLeft a member)
    · exact (right x inside b same.symm).mpr (ofRight b member)

/-- A message's own fields have the right kinds exactly if its references are right and no
entry of its maps is an enum. -/
theorem ownFields_kinds {path scope : String} {m : Message} (aligned : Aligned path scope)
    (filled : m.name.name.toList ≠ [])
    (silent : ∀ field ∈ ((fileContext displayFloat f).ownFields path m).1, NoErrors
      (resolveFieldType scope (namesSeenBy displayFloat files f) f.name field).2) :
    (∀ field ∈ ((fileContext displayFloat f).ownFields path m).1, isNamedType field.type = true →
        KindRight files
          (resolveFieldType scope (namesSeenBy displayFloat files f) f.name field).1) ↔
      (∀ field ∈ members m ++ m.fields, ReferenceRight displayFloat files f scope field.ty) ∧
        ∀ mf ∈ m.maps, ¬ DeclaredEnum files (qualify (qualify scope m.name.name) (entryName mf)) := by
  have types : ((fileContext displayFloat f).ownFields path m).1.map
      (fun field => (field.type, field.typeName)) = _ := ownFields_types path m
  have entries : ∀ mf : MapField, "." ++ FileContext.selfPath path m.name.name ++ "." ++ entryName mf =
      qualify (qualify scope m.name.name) (entryName mf) := fun mf =>
    (aligned.own filled).entry (selfPath_filled filled)
  have absolute : ∀ mf : MapField,
      ¬ Relative (qualify (qualify scope m.name.name) (entryName mf)) := by
    intro mf
    rw [← entries mf]
    simp [Relative]
  refine forall_of_map_append types (fun field member src key => ?_) fun field member mf key => ?_
  · exact resolved_kind_iff (congrArg Prod.fst key) (congrArg Prod.snd key) (silent field member)
  · rw [entries mf] at key
    exact resolved_entry_iff (congrArg Prod.fst key) (congrArg Prod.snd key) (absolute mf)
      (silent field member)

theorem resolveFieldType_type (scope : String) (seen : List String) (fileName : String)
    (field : FieldDescriptorProto) :
    (resolveFieldType scope seen fileName field).1.type = field.type := by
  unfold resolveFieldType
  repeat' split
  all_goals rfl

/-- The fields of a list, once resolved, have the right kinds. -/
def ResolvedRight (displayFloat : UInt64 → String) (files : List File) (f : File) (scope : String)
    (fields : List FieldDescriptorProto) : Prop :=
  ∀ field ∈ fields, isNamedType field.type = true → KindRight files
    (resolveFieldType scope (namesSeenBy displayFloat files f) f.name field).1

theorem convertEntry_kinds {scope : String} {mf : MapField}
    (silent : NoErrors (resolveMessage (namesSeenBy displayFloat files f) f.name scope
      ((fileContext displayFloat f).convertEntry mf)).2) :
    ResolvedRight displayFloat files f scope ((fileContext displayFloat f).convertEntry mf).field ↔
      ReferenceRight displayFloat files f scope mf.key ∧
        ReferenceRight displayFloat files f scope mf.value := by
  rw [resolveMessage_snd] at silent
  have each := NoErrors.flatMap.mp (NoErrors.append.mp silent).1
  simp only [ResolvedRight, FileContext.convertEntry, List.forall_mem_cons, List.not_mem_nil,
    false_implies, implies_true, and_true] at each ⊢
  exact and_congr (resolved_kind_iff rfl rfl each.1) (resolved_kind_iff rfl rfl each.2)

/-- All fields in a message have the right kinds exactly if the references in it are right. -/
theorem convertMessage_kinds {m : Message} {path scope outer : String}
    (aligned : Aligned path scope) (filled : m.name.name.toList ≠ [])
    (inner : ∀ entry ∈ within scope m, ∀ name ∈ localNames entry.2, Spelled name)
    (silent : NoErrors (resolveMessage (namesSeenBy displayFloat files f) f.name scope
      ((fileContext displayFloat f).convertMessage path m).1).2) :
    (∀ entry ∈ produced outer (resolveMessage (namesSeenBy displayFloat files f) f.name scope
        ((fileContext displayFloat f).convertMessage path m).1).1,
      ∀ field ∈ entry.2.field, isNamedType field.type = true → KindRight files field) ↔
      ∀ entry ∈ within scope m, KindsAgree displayFloat files f entry.1 entry.2 := by
  induction m using Message.induction generalizing path scope outer with
  | step m ih =>
    rw [resolveMessage_snd, FileContext.convertMessage_fst] at silent
    obtain ⟨ofFields, ofNested⟩ := NoErrors.append.mp silent
    have fieldsSilent := NoErrors.flatMap.mp ofFields
    have nestedSilent := NoErrors.flatMap.mp ofNested
    simp only [Option.getD_some, List.forall_mem_append, List.forall_mem_map] at nestedSilent
    rw [within_eq] at inner
    have own := ownFields_kinds aligned filled fieldsSilent
    have nested : ∀ n ∈ m.nestedMessages, ∀ outer,
        (∀ entry ∈ produced outer (resolveMessage (namesSeenBy displayFloat files f) f.name
            (qualify scope m.name.name) ((fileContext displayFloat f).convertMessage
              (FileContext.selfPath path m.name.name) n).1).1,
          ∀ field ∈ entry.2.field, isNamedType field.type = true → KindRight files field) ↔
          ∀ entry ∈ within (qualify scope m.name.name) n,
            KindsAgree displayFloat files f entry.1 entry.2 := by
      intro n member outer
      refine ih n member (aligned.own filled) (inner _ List.mem_cons_self n.name.name ?_).1
        (fun entry below => inner entry (List.mem_cons_of_mem _ (List.mem_flatMap.mpr
          ⟨n, member, below⟩))) (nestedSilent.2 n member)
      simp only [localNames, List.mem_append, List.mem_map]
      exact .inl (.inr ⟨n, member, rfl⟩)
    have entries : ∀ mf ∈ m.maps, ∀ outer,
        (∀ entry ∈ produced outer (resolveMessage (namesSeenBy displayFloat files f) f.name
            (qualify scope m.name.name) ((fileContext displayFloat f).convertEntry mf)).1,
          ∀ field ∈ entry.2.field, isNamedType field.type = true → KindRight files field) ↔
          ReferenceRight displayFloat files f (qualify scope m.name.name) mf.key ∧
            ReferenceRight displayFloat files f (qualify scope m.name.name) mf.value := by
      intro mf member outer
      rw [← convertEntry_kinds (nestedSilent.1 mf member), produced_eq, resolveMessage_fst]
      simp only [FileContext.convertEntry, List.map_nil, List.flatMap_nil, List.forall_mem_cons,
        List.not_mem_nil, false_implies, implies_true, and_true, ResolvedRight, List.map_cons,
        resolveFieldType_type]
    rw [produced_eq, within_eq, List.forall_mem_cons, List.forall_mem_cons, resolveMessage_fst,
      FileContext.convertMessage_fst]
    simp only [List.forall_mem_map, resolveFieldType_type, List.map_append,
      List.map_map, List.forall_mem_flatMap, List.forall_mem_append, Function.comp_apply,
      Option.getD_some]
    rw [own]
    constructor
    · rintro ⟨⟨fields, noEnums⟩, maps, deeper⟩
      exact ⟨⟨fields, fun mf member => (entries mf member _).mp (maps mf member), noEnums⟩,
        fun n member => (nested n member _).mp (deeper n member)⟩
    · rintro ⟨⟨fields, maps, noEnums⟩, deeper⟩
      exact ⟨⟨fields, noEnums⟩, fun mf member => (entries mf member _).mpr (maps mf member),
        fun n member => (nested n member _).mpr (deeper n member)⟩

end References

/-- An accepted set records all kinds right exactly if every reference to an enum, and none to
a message, has the simple name of an enum of the referring file. -/
theorem accepted_kinds_iff (displayFloat : UInt64 → String) (files : List File)
    (spelled : ∀ f ∈ files, SpelledFile f) (accepted : Accepted displayFloat files) :
    KindsRight displayFloat files ↔
      ∀ f ∈ files, ∀ entry ∈ fileMessages f, KindsAgree displayFloat files f entry.1 entry.2 := by
  rw [KindsRight, compileSet_file, List.forall_mem_map]
  refine forall₂_congr fun f member => ?_
  have silent := ((accepted_iff.mp accepted).2.2.2.2.2 f member).1
  have top : ∀ m ∈ f.messages, Spelled m.name.name := fun m inside =>
    (spelled f member).top _ (List.mem_append_left _ (List.mem_map_of_mem inside))
  have package : (f.package.map fun p => p.name).getD "" = packageName f := rfl
  simp only [resolvedFile, resolveReferences, resolveMessages_eq, compile,
    FileContext.convertMessages_eq, each, NoErrors.append, NoErrors.flatMap, List.forall_mem_map,
    package] at silent
  simp only [fileDescriptors, resolvedFile, resolveReferences, resolveMessages_eq, compile,
    FileContext.convertMessages_eq, each, List.flatMap_map, List.map_map, List.forall_mem_flatMap,
    fileMessages, package, Function.comp_apply]
  exact forall₂_congr fun m inside => convertMessage_kinds
    (Aligned.package (spelled f member).package) (top m inside).1
    (fun entry below => (spelled f member).inner entry (List.mem_flatMap.mpr ⟨m, inside, below⟩))
    (silent.1 m inside)

/-- A file whose message refers to the enum of another file, in proto3. -/
def enumImporter : List File := [
  { name := "a.proto"
    syntaxDecl := some ⟨{}, "proto3"⟩
    imports := [⟨{}, "b.proto", .default⟩]
    messages := [{ emptyMessage "M" with
      fields := [⟨{}, ⟨"color", {}⟩, 1, .named ⟨"Color", {}⟩, .singular, none, none, []⟩] }] },
  { name := "b.proto"
    syntaxDecl := some ⟨{}, "proto3"⟩
    enums := [⟨{}, ⟨"Color", {}⟩, [⟨{}, ⟨"RED", {}⟩, 0, []⟩], [], [], [], false⟩] }]

private theorem enumImporter_spelled : ∀ f ∈ enumImporter, SpelledFile f := by
  intro f member
  rcases List.mem_cons.mp member with rfl | later
  · exact ⟨by decide +kernel, by decide +kernel, by decide +kernel⟩
  · rw [List.mem_singleton.mp later]
    exact ⟨by decide +kernel, by decide +kernel, by decide +kernel⟩

theorem accepted_kinds_iff_importer :
    KindsRight (fun _ => "") enumImporter ↔
      ∀ f ∈ enumImporter, ∀ entry ∈ fileMessages f,
        KindsAgree (fun _ => "") enumImporter f entry.1 entry.2 :=
  accepted_kinds_iff (fun _ => "") enumImporter enumImporter_spelled (by decide +kernel)

theorem not_accepted_kinds :
    ¬ ∀ (displayFloat : UInt64 → String) (files : List File), (∀ f ∈ files, SpelledFile f) →
      Accepted displayFloat files → KindsRight displayFloat files := by
  intro right
  have kinds := right (fun _ => "") enumImporter enumImporter_spelled (by decide +kernel)
  have typed : ∃ fd ∈ (compileSet (fun _ => "") enumImporter).set.file,
      ∃ entry ∈ fileDescriptors fd, ∃ field ∈ entry.2.field,
        field.type = some .message ∧ field.typeName = some ".Color" := by decide +kernel
  obtain ⟨fd, inSet, entry, below, field, inside, message, typeName⟩ := typed
  have enum : DeclaredEnum enumImporter ".Color" := by
    refine ⟨_, List.mem_cons_of_mem _ List.mem_cons_self, ?_⟩
    decide +kernel
  have recorded := ((kinds fd inSet entry below field inside (by rw [message]; rfl) _ typeName).1).mpr
    enum
  rw [message] at recorded
  cases recorded

end TptProto.Compiler
