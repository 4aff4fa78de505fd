import TptProto.Compiler.Pipeline
import TptProto.Foundation.DepthFirst
import Mathlib.Data.List.Nodup

/-! The search for import cycles is a depth-first search of the files given. -/

namespace TptProto.Compiler

open TptProto.Foundation TptProto.Language

/-- One file imports another, both among those given. -/
def ImportsFile (files : List File) (a b : String) : Prop :=
  (∃ f ∈ files, f.name = a ∧ ∃ imp ∈ f.imports, imp.path = b) ∧ ∃ g ∈ files, g.name = b

theorem get?_mapInsert {κ α : Type} [DecidableEq κ] (entries : List (κ × α)) (key other : κ)
    (value : α) : SortedMap.get? (mapInsert entries key value) other =
      if key = other then some value else SortedMap.get? entries other := rfl

section Index

private abbrev indexStep (state : FileIndex × Findings) (f : File) : FileIndex × Findings :=
  (mapInsert state.1 f.name f,
    if SortedMap.contains state.1 f.name then
      state.2 ++ [.error .duplicateSymbol ("duplicate file name '" ++ f.name ++ "'") none f.name]
    else state.2)

private theorem index_fold (files : List File) (state : FileIndex × Findings) (name : String) :
    SortedMap.get? (files.foldl indexStep state).1 name =
      (files.reverse.find? fun f => f.name = name).or (SortedMap.get? state.1 name) := by
  induction files generalizing state with
  | nil => rfl
  | cons f rest ih =>
    rw [List.foldl_cons, ih, List.reverse_cons, List.find?_append, get?_mapInsert]
    cases rest.reverse.find? fun f => f.name = name with
    | some found => rfl
    | none =>
      by_cases same : f.name = name <;> simp [same]

/-- A name is looked up to the last file that has it. -/
theorem get?_indexFiles (files : List File) (name : String) :
    SortedMap.get? (indexFiles files).1 name = files.reverse.find? fun f => f.name = name := by
  have folded := index_fold files ([], []) name
  simpa [indexFiles] using folded

theorem contains_indexFiles (files : List File) (name : String) :
    SortedMap.contains (indexFiles files).1 name = true ↔ ∃ f ∈ files, f.name = name := by
  rw [SortedMap.contains, get?_indexFiles, List.find?_isSome]
  simp

/-- With distinct names, a name is looked up to the file that has it. -/
theorem get?_indexFiles_eq_some {files : List File} (distinct : (files.map File.name).Nodup)
    {name : String} {f : File} :
    SortedMap.get? (indexFiles files).1 name = some f ↔ f ∈ files ∧ f.name = name := by
  rw [get?_indexFiles]
  constructor
  · intro found
    exact ⟨List.mem_reverse.mp (List.mem_of_find?_eq_some found), by simpa using List.find?_some found⟩
  · rintro ⟨member, rfl⟩
    obtain ⟨g, found⟩ := Option.isSome_iff_exists.mp
      (List.find?_isSome.mpr ⟨f, List.mem_reverse.mpr member, by simp⟩ :
        (files.reverse.find? fun g => g.name = f.name).isSome = true)
    have memberG := List.mem_reverse.mp (List.mem_of_find?_eq_some found)
    have same : g.name = f.name := by simpa using List.find?_some found
    rw [found, List.inj_on_of_nodup_map distinct memberG member same]

end Index

section Search

variable (byName : FileIndex)

/-- The imports of a file that are among those given. -/
def givenImports (name : String) : List String :=
  ((importsIn byName name).filter fun imp => SortedMap.contains byName imp.path).map Import.path

variable {byName}

/-- The colours record the marks of a search. -/
structure Colours (state : CycleState) (marks : DepthFirst.Marks String) : Prop where
  done : ∀ name, SortedMap.get? state.color name = some .done ↔ name ∈ marks.finished
  active : ∀ name, SortedMap.get? state.color name = some .inProgress ↔ name ∈ marks.active
  findings : state.findings = marks.hits.map cycleFinding

/-- Both searches end, with corresponding marks. -/
def Corresponds (state : Option CycleState) (marks : Option (DepthFirst.Marks String)) : Prop :=
  match state, marks with
  | some state, some marks => Colours state marks
  | none, none => True
  | _, _ => False

theorem Corresponds.bind {x : Option CycleState} {y : Option (DepthFirst.Marks String)}
    {f : CycleState → Option CycleState}
    {g : DepthFirst.Marks String → Option (DepthFirst.Marks String)} (head : Corresponds x y)
    (tail : ∀ state marks, y = some marks → Colours state marks → Corresponds (f state) (g marks)) :
    Corresponds (x >>= f) (y >>= g) := by
  cases x with
  | none =>
    cases y with
    | none => trivial
    | some _ => cases head
  | some state =>
    cases y with
    | none => cases head
    | some marks => exact tail state marks rfl head

private theorem imports_fold {fuel : Nat}
    (each : ∀ {name state marks}, Colours state marks →
      Corresponds (visitCycle byName fuel name state)
        (DepthFirst.visit (givenImports byName) fuel name marks))
    (imports : List Import) {state : CycleState} {marks : DepthFirst.Marks String}
    (colours : Colours state marks) :
    Corresponds
      (imports.foldlM (fun state imp =>
        if SortedMap.contains byName imp.path then visitCycle byName fuel imp.path state
        else some state) state)
      (DepthFirst.visitAll (givenImports byName) fuel
        ((imports.filter fun imp => SortedMap.contains byName imp.path).map Import.path) marks) := by
  induction imports generalizing state marks with
  | nil => exact colours
  | cons imp rest ih =>
    rw [List.foldlM_cons, List.filter_cons]
    by_cases given : SortedMap.contains byName imp.path = true
    · simp only [given, ↓reduceIte, List.map_cons, DepthFirst.visitAll, List.foldlM_cons]
      exact (each colours).bind fun _ _ _ colours => ih colours
    · simp only [given, Bool.false_eq_true, ↓reduceIte]
      exact ih colours

theorem Colours.enter {name : String} {state : CycleState} {marks : DepthFirst.Marks String}
    (colours : Colours state marks) (finished : name ∉ marks.finished) :
    Colours { state with color := mapInsert state.color name .inProgress }
      { marks with active := name :: marks.active } := by
  refine ⟨fun other => ?_, fun other => ?_, colours.findings⟩
  · rw [get?_mapInsert]
    by_cases same : name = other
    · subst same
      simpa using finished
    · rw [if_neg same, colours.done]
  · rw [get?_mapInsert]
    by_cases same : name = other
    · simp [same]
    · rw [if_neg same, colours.active]
      simp [Ne.symm same]

theorem Colours.leave {name : String} {active : List String} {state : CycleState}
    {marks : DepthFirst.Marks String} (colours : Colours state marks)
    (inside : marks.active = name :: active) (fresh : name ∉ active) :
    Colours { state with color := mapInsert state.color name .done }
      { marks with active, finished := name :: marks.finished } := by
  refine ⟨fun other => ?_, fun other => ?_, colours.findings⟩
  · rw [get?_mapInsert]
    by_cases same : name = other
    · simp [same]
    · rw [if_neg same, colours.done]
      simp [Ne.symm same]
  · rw [get?_mapInsert]
    by_cases same : name = other
    · subst same
      simpa using fresh
    · rw [if_neg same, colours.active, inside]
      simp [Ne.symm same]

/-- A coloured node is not entered again. -/
private theorem visit_coloured {fuel : Nat} {name : String} {color : Color} {state : CycleState}
    {marks : DepthFirst.Marks String} (colours : Colours state marks)
    (known : SortedMap.get? state.color name = some color) :
    Corresponds (visitCycle byName fuel name state)
      (DepthFirst.visit (givenImports byName) fuel name marks) := by
  unfold visitCycle DepthFirst.visit
  cases color with
  | done =>
    simp only [known, if_pos ((colours.done name).mp known)]
    exact colours
  | inProgress =>
    have finished : name ∉ marks.finished := by simp [← colours.done, known]
    simp only [known, if_neg finished, if_pos ((colours.active name).mp known)]
    exact ⟨colours.done, colours.active, by simp [colours.findings]⟩

theorem visitCycle_corresponds {fuel : Nat} {name : String} {state : CycleState}
    {marks : DepthFirst.Marks String} (colours : Colours state marks) :
    Corresponds (visitCycle byName fuel name state)
      (DepthFirst.visit (givenImports byName) fuel name marks) := by
  induction fuel generalizing name state marks with
  | zero =>
    cases known : SortedMap.get? state.color name with
    | some color => exact visit_coloured colours known
    | none =>
      have active : name ∉ marks.active := by simp [← colours.active, known]
      have finished : name ∉ marks.finished := by simp [← colours.done, known]
      unfold visitCycle DepthFirst.visit
      simp only [known, if_neg finished, if_neg active]
      trivial
  | succ fuel ih =>
    cases known : SortedMap.get? state.color name with
    | some color => exact visit_coloured colours known
    | none =>
      have active : name ∉ marks.active := by simp [← colours.active, known]
      have finished : name ∉ marks.finished := by simp [← colours.done, known]
      unfold visitCycle DepthFirst.visit
      simp only [known, if_neg finished, if_neg active]
      have folded := imports_fold (fun colours => ih colours) (importsIn byName name)
        (colours.enter finished)
      exact folded.bind fun _ _ run inner =>
        inner.leave (DepthFirst.visitAll_grows run).active active

private theorem roots_correspond {fuel : Nat} (files : List File) {state : CycleState}
    {marks : DepthFirst.Marks String} (colours : Colours state marks) :
    Corresponds (files.foldlM (fun state f => visitCycle byName fuel f.name state) state)
      (DepthFirst.visitAll (givenImports byName) fuel (files.map File.name) marks) := by
  induction files generalizing state marks with
  | nil => exact colours
  | cons f rest ih =>
    simp only [List.foldlM_cons, List.map_cons, DepthFirst.visitAll]
    exact (visitCycle_corresponds colours).bind fun _ _ _ colours => ih colours

end Search

private theorem edge_iff {files : List File} (distinct : (files.map File.name).Nodup) {a b : String} :
    DepthFirst.Edge (givenImports (indexFiles files).1) a b ↔ ImportsFile files a b := by
  simp only [DepthFirst.Edge, givenImports, importsIn, List.mem_map, List.mem_filter,
    contains_indexFiles, ImportsFile]
  cases found : SortedMap.get? (indexFiles files).1 a with
  | none =>
    have absent : ∀ f, ¬ (f ∈ files ∧ f.name = a) := by
      intro f present
      rw [(get?_indexFiles_eq_some distinct).mpr present] at found
      cases found
    constructor
    · rintro ⟨imp, ⟨member, _⟩, _⟩
      cases member
    · rintro ⟨⟨f, member, name, _⟩, _⟩
      exact absurd ⟨member, name⟩ (absent f)
  | some f =>
    obtain ⟨member, rfl⟩ := (get?_indexFiles_eq_some distinct).mp found
    constructor
    · rintro ⟨imp, ⟨imports, given⟩, rfl⟩
      exact ⟨⟨f, member, rfl, imp, imports, rfl⟩, given⟩
    · rintro ⟨⟨g, memberG, same, imp, imports, rfl⟩, given⟩
      have unique := (get?_indexFiles_eq_some distinct).mpr ⟨memberG, same⟩
      rw [found] at unique
      cases unique
      exact ⟨imp, ⟨imports, given⟩, rfl⟩

private theorem index_length (files : List File) (state : FileIndex × Findings) :
    (files.foldl indexStep state).1.length = state.1.length + files.length := by
  induction files generalizing state with
  | nil => rfl
  | cons f rest ih =>
    rw [List.foldl_cons, ih]
    simp only [mapInsert, List.length_cons]
    omega

/-- The search for import cycles always ends. It reports a cycle exactly when there is one
among the files given. -/
theorem detectImportCycles_iff (files : List File) (distinct : (files.map File.name).Nodup) :
    ∃ findings, detectImportCycles (indexFiles files).1 files = some findings ∧
      ((∃ name, cycleFinding name ∈ findings) ↔
        ∃ name, Relation.TransGen (ImportsFile files) name name) := by
  have size : (indexFiles files).1.length = files.length := by
    simpa [indexFiles] using index_length files ([], [])
  have sameEdges : DepthFirst.Edge (givenImports (indexFiles files).1) = ImportsFile files := by
    funext a b
    exact propext (edge_iff distinct)
  obtain ⟨marks, run, hits⟩ := DepthFirst.visitAll_correct (givenImports (indexFiles files).1)
    (indexFiles files).1.length (files.map File.name) (files.map File.name)
    (fun a _ b edge => by
      obtain ⟨_, g, member, name⟩ := (edge_iff distinct).mp edge
      exact List.mem_map.mpr ⟨g, member, name⟩)
    (fun _ => Iff.rfl)
    (fun a outside => by
      refine List.eq_nil_iff_forall_not_mem.mpr fun b edge => outside ?_
      obtain ⟨⟨f, member, name, _⟩, _⟩ := (edge_iff distinct).mp edge
      exact List.mem_map.mpr ⟨f, member, name⟩)
    (Nat.le_of_eq (by rw [List.length_map, size]))
  have colours : Colours {} ({} : DepthFirst.Marks String) := ⟨by simp, by simp, rfl⟩
  have together : Corresponds (files.foldlM (fun state f =>
        visitCycle (indexFiles files).1 (indexFiles files).1.length f.name state) {})
      (DepthFirst.visitAll (givenImports (indexFiles files).1) (indexFiles files).1.length
        (files.map File.name) {}) := roots_correspond files colours
  rw [run] at together
  cases ends : files.foldlM (fun state f =>
      visitCycle (indexFiles files).1 (indexFiles files).1.length f.name state) {} with
  | none =>
    rw [ends] at together
    cases together
  | some state =>
    rw [ends] at together
    have same : state.findings = marks.hits.map cycleFinding := together.findings
    refine ⟨state.findings, by rw [detectImportCycles, ends]; rfl, ?_⟩
    rw [same, ← sameEdges, ← hits]
    constructor
    · rintro ⟨name, member⟩ none
      simp [none] at member
    · intro some
      obtain ⟨name, member⟩ := List.exists_mem_of_ne_nil _ some
      exact ⟨name, List.mem_map_of_mem member⟩

/-- A file that imports itself. -/
theorem detectImportCycles_iff_self :
    ∃ findings, detectImportCycles
        (indexFiles [{ name := "a.proto", imports := [⟨{}, "a.proto", .default⟩] }]).1
        [{ name := "a.proto", imports := [⟨{}, "a.proto", .default⟩] }] = some findings ∧
      ((∃ name, cycleFinding name ∈ findings) ↔
        ∃ name, Relation.TransGen
          (ImportsFile [{ name := "a.proto", imports := [⟨{}, "a.proto", .default⟩] }]) name name) :=
  detectImportCycles_iff _ (by decide)

end TptProto.Compiler
