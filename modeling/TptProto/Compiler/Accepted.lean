import TptProto.Compiler.Cycles

/-! What a compilation without errors has checked, pass by pass. -/

namespace TptProto.Compiler

open TptProto.Foundation TptProto.Descriptor TptProto.Language

/-- The compilation of a set of files reports no error. -/
def Accepted (displayFloat : UInt64 → String) (files : List File) : Prop :=
  hasErrors (compileSet displayFloat files).diagnostics = false

instance (displayFloat : UInt64 → String) (files : List File) :
    Decidable (Accepted displayFloat files) := inferInstanceAs (Decidable (_ = false))

section Findings

def AllErrors (findings : Findings) : Prop := ∀ f ∈ findings, f.diagnostic.severity = .error

def NoErrors (findings : Findings) : Prop := ∀ f ∈ findings, f.diagnostic.severity ≠ .error

theorem hasErrors_findings {findings : Findings} :
    hasErrors (findings.map fun finding => finding.diagnostic) = false ↔ NoErrors findings := by
  simp [hasErrors, NoErrors]

theorem NoErrors.append {first second : Findings} :
    NoErrors (first ++ second) ↔ NoErrors first ∧ NoErrors second := by
  simp only [NoErrors, List.mem_append, or_imp, forall_and]

theorem NoErrors.flatMap {α : Type} {findings : α → Findings} {items : List α} :
    NoErrors (items.flatMap findings) ↔ ∀ item ∈ items, NoErrors (findings item) := by
  constructor
  · intro none item member f found
    exact none f (List.mem_flatMap.mpr ⟨item, member, found⟩)
  · intro each f found
    obtain ⟨item, member, inside⟩ := List.mem_flatMap.mp found
    exact each item member f inside

/-- Errors without errors are nothing at all. -/
theorem AllErrors.eq_nil {findings : Findings} (all : AllErrors findings)
    (none : NoErrors findings) : findings = [] := by
  cases findings with
  | nil => rfl
  | cons f _ => exact absurd (all f List.mem_cons_self) (none f List.mem_cons_self)

end Findings

section Passes

private theorem index_findings (files : List File) (state : FileIndex × Findings)
    (none : NoErrors (files.foldl (fun state f => (mapInsert state.1 f.name f,
      if SortedMap.contains state.1 f.name then
        state.2 ++ [.error .duplicateSymbol ("duplicate file name '" ++ f.name ++ "'") none f.name]
      else state.2)) state).2) :
    NoErrors state.2 ∧ (files.map File.name).Nodup ∧
      ∀ f ∈ files, SortedMap.contains state.1 f.name = false := by
  induction files generalizing state with
  | nil => exact ⟨none, List.nodup_nil, by simp⟩
  | cons f rest ih =>
    obtain ⟨before, distinct, fresh⟩ := ih _ none
    have unseen : SortedMap.contains state.1 f.name = false := by
      cases seen : SortedMap.contains state.1 f.name with
      | false => rfl
      | true =>
        simp only [seen, ↓reduceIte] at before
        exact absurd rfl ((NoErrors.append.mp before).2 _ List.mem_cons_self)
    have later : ∀ g ∈ rest, f.name ≠ g.name ∧ SortedMap.contains state.1 g.name = false := by
      intro g member
      have absent := fresh g member
      rw [SortedMap.contains, get?_mapInsert] at absent
      split at absent
      · cases absent
      · rename_i differs
        exact ⟨differs, absent⟩
    refine ⟨by simpa [unseen] using before, ?_, ?_⟩
    · rw [List.map_cons, List.nodup_cons]
      refine ⟨fun member => ?_, distinct⟩
      obtain ⟨g, inside, same⟩ := List.mem_map.mp member
      exact (later g inside).1 same.symm
    · intro g member
      rcases List.mem_cons.mp member with rfl | inside
      · exact unseen
      · exact (later g inside).2

theorem resolveFieldType_errors (pkg : String) (visible : List String) (fileName : String)
    (f : FieldDescriptorProto) : AllErrors (resolveFieldType pkg visible fileName f).2 := by
  unfold resolveFieldType
  intro finding member
  split at member
  · split at member
    · split at member
      · cases member
      · rw [List.mem_singleton.mp member]
        rfl
    · cases member
  · cases member

end Passes

variable {displayFloat : UInt64 → String} {files : List File}

/-- The symbol table of a set of files. -/
def symbolTable (displayFloat : UInt64 → String) (files : List File) :
    SymbolState × List (String × List String) :=
  collectAll (files.map fun f => (compile displayFloat f).1)

/-- The names a file of a set sees. -/
def namesSeenBy (displayFloat : UInt64 → String) (files : List File) (f : File) : List String :=
  visibleNames (symbolTable displayFloat files).2
    ((computeVisibility (indexFiles files).1 files).getD []) f.name

/-- A file's descriptor before and after its references are resolved. -/
def resolvedFile (displayFloat : UInt64 → String) (files : List File) (f : File) :
    FileDescriptorProto × Findings :=
  resolveReferences (compile displayFloat f).1 f.name (namesSeenBy displayFloat files f)

theorem compileSet_file :
    (compileSet displayFloat files).set.file =
      files.map fun f => (resolvedFile displayFloat files f).1 := by
  simp only [compileSet, resolvedFile, namesSeenBy, symbolTable, List.map_map, Function.comp_def]

theorem accepted_iff : Accepted displayFloat files ↔
    NoErrors (indexFiles files).2 ∧
      NoErrors ((detectImportCycles (indexFiles files).1 files).getD []) ∧
      NoErrors (missingImports (indexFiles files).1 files) ∧
      (∀ f ∈ files, hasErrors (compile displayFloat f).2 = false) ∧
      NoErrors (symbolTable displayFloat files).1.findings ∧
      ∀ f ∈ files, NoErrors (resolvedFile displayFloat files f).2 ∧
        NoErrors (validateOptionsInFile f) := by
  have zipped : ∀ {α β γ : Type} (items : List α) (first : α → β) (second : α → γ),
      (items.map first).zip (items.map second) = items.map fun item => (first item, second item) :=
    fun items first second => by
      induction items with
      | nil => rfl
      | cons item rest ih => simp [ih]
  simp only [Accepted, CompileResult.diagnostics, hasErrors_findings, compileSet, NoErrors.append,
    NoErrors.flatMap, and_assoc, resolvedFile, namesSeenBy, symbolTable, List.map_map,
    Function.comp_def, zipped, List.forall_mem_map]
  simp only [hasErrors, NoErrors, List.any_eq_false, List.forall_mem_map, decide_eq_true_eq]

/-- A file of a set that compiles without errors. -/
def Compiled (displayFloat : UInt64 → String) (fd : FileDescriptorProto) : Prop :=
  ∃ files, Accepted displayFloat files ∧ fd ∈ (compileSet displayFloat files).set.file

theorem Accepted.names_distinct (accepted : Accepted displayFloat files) :
    (files.map File.name).Nodup :=
  (index_findings files ([], []) (accepted_iff.mp accepted).1).2.1

theorem Accepted.converted (accepted : Accepted displayFloat files) {f : File} (member : f ∈ files) :
    hasErrors (compile displayFloat f).2 = false :=
  (accepted_iff.mp accepted).2.2.2.1 f member

end TptProto.Compiler
