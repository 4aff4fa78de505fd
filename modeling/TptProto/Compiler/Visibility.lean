import TptProto.Compiler.Cycles

/-! What a file sees: its imports and the closure of their public imports. -/

namespace TptProto.Compiler

open TptProto.Foundation TptProto.Language

section Sets

variable {α : Type} [DecidableEq α]

theorem mem_setInsert {set : List α} {item other : α} :
    other ∈ setInsert set item ↔ other ∈ set ∨ other = item := by
  unfold setInsert
  split
  · rename_i member
    constructor
    · exact .inl
    · rintro (known | rfl)
      · exact known
      · exact member
  · simp

theorem mem_setExtend {set items : List α} {other : α} :
    other ∈ setExtend set items ↔ other ∈ set ∨ other ∈ items := by
  induction items generalizing set with
  | nil => simp [setExtend]
  | cons item rest ih =>
    rw [setExtend, List.foldl_cons]
    change other ∈ setExtend (setInsert set item) rest ↔ _
    rw [ih, mem_setInsert, List.mem_cons, or_assoc]

end Sets

section Closure

variable (byName : FileIndex)

/-- A file imports another one that is given. -/
def Imports (a b : String) : Prop :=
  ∃ imp ∈ importsIn byName a, imp.path = b ∧ SortedMap.contains byName b = true

/-- A file publicly imports another one that is given. -/
def PublicImports (a b : String) : Prop :=
  ∃ imp ∈ importsIn byName a,
    imp.path = b ∧ SortedMap.contains byName b = true ∧ imp.kind = .«public»

variable {byName}

theorem PublicImports.imports {a b : String} (edge : PublicImports byName a b) :
    Imports byName a b := by
  obtain ⟨imp, member, path, given, _⟩ := edge
  exact ⟨imp, member, path, given⟩

/-- Finished entries hold the closure of the public imports; the others are in progress. -/
structure MemoOk (byName : FileIndex) (stack : List String) (memo : Memo) : Prop where
  finished : ∀ name set, SortedMap.get? memo name = some (some set) →
    ∀ g, g ∈ set ↔ Relation.TransGen (PublicImports byName) name g
  inProgress : ∀ name, SortedMap.get? memo name = some none → name ∈ stack

/-- The search of a file succeeds with the closure of its public imports. -/
def Closes (byName : FileIndex) (stack : List String) (fuel : Nat) (name : String) (memo : Memo) :
    Prop :=
  ∃ set memo', reexportedOf byName fuel name memo = some (set, memo') ∧
    MemoOk byName stack memo' ∧ ∀ g, g ∈ set ↔ Relation.TransGen (PublicImports byName) name g

/-- A fold over imports that merges the closures of those it takes. -/
private theorem imports_closed (fuel : Nat) {stack : List String} (take : Import → Prop)
    [DecidablePred take] (imports : List Import) (set : List String)
    (each : ∀ imp ∈ imports, take imp → ∀ memo, MemoOk byName stack memo →
      Closes byName stack fuel imp.path memo)
    {memo : Memo} (ok : MemoOk byName stack memo) :
    ∃ set' memo', imports.foldlM (fun (state : List String × Memo) imp =>
        if take imp then do
          let (inner, memo) ← reexportedOf byName fuel imp.path state.2
          some (setExtend (setInsert state.1 imp.path) inner, memo)
        else some state) (set, memo) = some (set', memo') ∧ MemoOk byName stack memo' ∧
      ∀ g, g ∈ set' ↔ g ∈ set ∨ ∃ imp ∈ imports, take imp ∧
        Relation.ReflTransGen (PublicImports byName) imp.path g := by
  induction imports generalizing set memo with
  | nil => exact ⟨set, memo, rfl, ok, by simp⟩
  | cons imp rest ih =>
    have later := fun imp member => each imp (List.mem_cons_of_mem _ member)
    simp only [List.foldlM_cons]
    by_cases taken : take imp
    · obtain ⟨inner, memo₁, run, ok₁, closure⟩ := each imp List.mem_cons_self taken memo ok
      obtain ⟨set', memo', fold, ok', content⟩ :=
        ih (setExtend (setInsert set imp.path) inner) later ok₁
      refine ⟨set', memo', ?_, ok', fun g => ?_⟩
      · simpa only [if_pos taken, run, Option.bind_eq_bind, Option.bind_some] using fold
      · rw [content, mem_setExtend, mem_setInsert, closure]
        simp only [List.mem_cons, exists_eq_or_imp, taken, true_and,
          Relation.reflTransGen_iff_eq_or_transGen, or_assoc]
    · obtain ⟨set', memo', fold, ok', content⟩ := ih set later ok
      refine ⟨set', memo', ?_, ok', fun g => ?_⟩
      · simpa only [if_neg taken, Option.bind_eq_bind, Option.bind_some] using fold
      · rw [content]
        simp only [List.mem_cons, exists_eq_or_imp, taken, false_and, false_or]

theorem reexportedOf_closes (acyclic : ∀ name, ¬ Relation.TransGen (PublicImports byName) name name)
    {fuel : Nat} {stack : List String} {name : String} {memo : Memo}
    (ok : MemoOk byName stack memo) (below : ∀ a ∈ stack, Relation.TransGen (PublicImports byName) a name)
    (given : SortedMap.contains byName name = true) (distinct : stack.Nodup)
    (inside : stack ⊆ byName.map Prod.fst) (enough : byName.length ≤ fuel + stack.length) :
    Closes byName stack fuel name memo := by
  have fresh : name ∉ stack := fun member => acyclic name (below name member)
  have key : name ∈ byName.map Prod.fst := by
    obtain ⟨f, found⟩ := Option.isSome_iff_exists.mp given
    exact List.mem_map.mpr ⟨_, SortedMap.mem_of_get? found, rfl⟩
  have longer : (name :: stack).Nodup := List.nodup_cons.mpr ⟨fresh, distinct⟩
  have wider : name :: stack ⊆ byName.map Prod.fst := List.cons_subset.mpr ⟨key, inside⟩
  induction fuel generalizing stack name memo with
  | zero =>
    have bound := longer.length_le_of_subset wider
    simp only [List.length_cons, List.length_map] at bound
    omega
  | succ fuel ih =>
    cases known : SortedMap.get? memo name with
    | some entry =>
      cases entry with
      | none => exact absurd (ok.inProgress name known) fresh
      | some set =>
        refine ⟨set, memo, ?_, ok, ok.finished name set known⟩
        unfold reexportedOf
        simp only [known, Option.getD_some]
    | none =>
      have entered : MemoOk byName (name :: stack) (mapInsert memo name none) := by
        refine ⟨fun other set found => ?_, fun other found => ?_⟩
        · rw [get?_mapInsert] at found
          split at found
          · cases found
          · exact ok.finished other set found
        · rw [get?_mapInsert] at found
          split at found
          · rename_i same
            simp [same]
          · exact List.mem_cons_of_mem _ (ok.inProgress other found)
      obtain ⟨set, memo', fold, ok', content⟩ := imports_closed fuel
        (fun imp => imp.kind = .«public» ∧ SortedMap.contains byName imp.path = true)
        (importsIn byName name) [] (fun imp member taken memo ok => by
          have edge : PublicImports byName name imp.path := ⟨imp, member, rfl, taken.2, taken.1⟩
          have below' : ∀ a ∈ name :: stack,
              Relation.TransGen (PublicImports byName) a imp.path := by
            intro a member
            rcases List.mem_cons.mp member with rfl | earlier
            · exact .single edge
            · exact (below a earlier).tail edge
          have fresh' : imp.path ∉ name :: stack := fun member => acyclic _ (below' _ member)
          have key' : imp.path ∈ byName.map Prod.fst := by
            obtain ⟨f, found⟩ := Option.isSome_iff_exists.mp taken.2
            exact List.mem_map.mpr ⟨_, SortedMap.mem_of_get? found, rfl⟩
          refine ih ok below' taken.2 longer wider ?_ fresh' key'
            (List.nodup_cons.mpr ⟨fresh', longer⟩) (List.cons_subset.mpr ⟨key', wider⟩)
          rw [List.length_cons]
          omega) entered
      have closure : ∀ g, g ∈ set ↔ Relation.TransGen (PublicImports byName) name g := by
        intro g
        rw [content, Relation.TransGen.head'_iff]
        constructor
        · rintro (impossible | ⟨imp, member, taken, path⟩)
          · cases impossible
          · exact ⟨imp.path, ⟨imp, member, rfl, taken.2, taken.1⟩, path⟩
        · rintro ⟨_, ⟨imp, member, rfl, given, isPublic⟩, path⟩
          exact .inr ⟨imp, member, ⟨isPublic, given⟩, path⟩
      refine ⟨set, mapInsert memo' name (some set), ?_, ⟨fun other found same => ?_,
        fun other found => ?_⟩, closure⟩
      · unfold reexportedOf
        simp only [known]
        rw [fold]
        rfl
      · rw [get?_mapInsert] at same
        split at same
        · rename_i eq
          cases same
          exact eq ▸ closure
        · exact ok'.finished other found same
      · rw [get?_mapInsert] at found
        split at found
        · cases found
        · rename_i differs
          exact (List.mem_cons.mp (ok'.inProgress other found)).resolve_left (Ne.symm differs)

/-- What a file sees: a file it imports, or one that such a file publicly re-exports. -/
def Sees (byName : FileIndex) (name g : String) : Prop :=
  ∃ direct, Imports byName name direct ∧ Relation.ReflTransGen (PublicImports byName) direct g

/-- A file's entry holds what it sees. -/
def EntryOk (byName : FileIndex) (visibility : Visibility) (name : String) : Prop :=
  ∃ vis, SortedMap.get? visibility name = some vis ∧ ∀ g, g ∈ vis ↔ Sees byName name g

private theorem visibleFrom_sees
    (acyclic : ∀ name, ¬ Relation.TransGen (PublicImports byName) name name) (f : File)
    {memo : Memo} (ok : MemoOk byName [] memo) :
    ∃ vis memo', visibleFrom byName f memo = some (vis, memo') ∧ MemoOk byName [] memo' ∧
      ∀ g, g ∈ vis ↔ ∃ imp ∈ f.imports, SortedMap.contains byName imp.path = true ∧
        Relation.ReflTransGen (PublicImports byName) imp.path g := by
  obtain ⟨vis, memo', fold, ok', content⟩ := imports_closed byName.length
    (fun imp => SortedMap.contains byName imp.path = true) f.imports []
    (fun imp _ given memo ok => reexportedOf_closes acyclic ok (by simp) given List.nodup_nil
      (List.nil_subset _) (Nat.le_add_right _ _)) ok
  exact ⟨vis, memo', fold, ok', by simpa using content⟩

/-- The fold over the files: the last file of each name fills its entry. -/
private theorem files_fold
    (acyclic : ∀ name, ¬ Relation.TransGen (PublicImports byName) name name) (files : List File)
    (state : Visibility × Memo) (ok : MemoOk byName [] state.2) :
    ∃ state' : Visibility × Memo, files.foldlM (fun (state : Visibility × Memo) f => do
        let (vis, memo) ← visibleFrom byName f state.2
        some (mapInsert state.1 f.name vis, memo)) state = some state' ∧
      ∀ name, match files.reverse.find? fun f => f.name = name with
        | some f => ∃ vis, SortedMap.get? state'.1 name = some vis ∧
            ∀ g, g ∈ vis ↔ ∃ imp ∈ f.imports, SortedMap.contains byName imp.path = true ∧
              Relation.ReflTransGen (PublicImports byName) imp.path g
        | none => SortedMap.get? state'.1 name = SortedMap.get? state.1 name := by
  induction files generalizing state with
  | nil => exact ⟨state, rfl, fun _ => rfl⟩
  | cons f rest ih =>
    obtain ⟨vis, memo, run, ok', content⟩ := visibleFrom_sees acyclic f ok
    obtain ⟨state', fold, entries⟩ := ih (mapInsert state.1 f.name vis, memo) ok'
    refine ⟨state', ?_, fun name => ?_⟩
    · simpa only [List.foldlM_cons, run, Option.bind_eq_bind, Option.bind_some] using fold
    · have entry := entries name
      rw [List.reverse_cons, List.find?_append]
      cases found : rest.reverse.find? fun f => f.name = name with
      | some g =>
        rw [found] at entry
        exact entry
      | none =>
        rw [found] at entry
        simp only [get?_mapInsert] at entry
        by_cases same : f.name = name
        · simp only [same, Option.none_or, List.find?_singleton, decide_true, ↓reduceIte] at entry ⊢
          exact ⟨vis, entry, content⟩
        · simpa [same] using entry

theorem computeVisibility_sees (files : List File)
    (acyclic : ∀ name, ¬ Relation.TransGen (PublicImports (indexFiles files).1) name name) :
    ∃ visibility, computeVisibility (indexFiles files).1 files = some visibility ∧
      ∀ f ∈ files, EntryOk (indexFiles files).1 visibility f.name := by
  obtain ⟨state, fold, entries⟩ := files_fold acyclic files ([], []) ⟨by simp, by simp⟩
  refine ⟨state.1, by rw [computeVisibility, fold]; rfl, fun f member => ?_⟩
  have entry := entries f.name
  obtain ⟨last, found⟩ := Option.isSome_iff_exists.mp ((contains_indexFiles files f.name).mpr
    ⟨f, member, rfl⟩)
  rw [← get?_indexFiles, found] at entry
  obtain ⟨vis, stored, content⟩ := entry
  refine ⟨vis, stored, fun g => ?_⟩
  rw [content]
  simp only [Sees, Imports, importsIn, found]
  constructor
  · rintro ⟨imp, imports, given, path⟩
    exact ⟨imp.path, ⟨imp, imports, rfl, given⟩, path⟩
  · rintro ⟨_, ⟨imp, imports, rfl, given⟩, path⟩
    exact ⟨imp, imports, given, path⟩

end Closure

/-- Over an acyclic import graph each file sees exactly the files given that it reaches by
one import followed by public imports, however the files are ordered. -/
theorem computeVisibility_iff (files : List File)
    (acyclic : ∀ name, ¬ Relation.TransGen (Imports (indexFiles files).1) name name) :
    (∃ visibility, computeVisibility (indexFiles files).1 files = some visibility ∧
      ∀ f ∈ files, EntryOk (indexFiles files).1 visibility f.name) ∧
    ∀ files' : List File, files'.Perm files → (files.map File.name).Nodup →
      ∃ visibility, computeVisibility (indexFiles files').1 files' = some visibility ∧
        ∀ f ∈ files, EntryOk (indexFiles files).1 visibility f.name := by
  have publicly : ∀ name, ¬ Relation.TransGen (PublicImports (indexFiles files).1) name name :=
    fun name cycle => by
    have wider : PublicImports (indexFiles files).1 ≤ Imports (indexFiles files).1 :=
      fun _ _ edge => edge.imports
    exact acyclic name (Relation.TransGen.mono wider _ _ cycle)
  refine ⟨computeVisibility_sees files publicly, fun files' perm distinct => ?_⟩
  have distinct' : (files'.map File.name).Nodup := (perm.map File.name).nodup_iff.mpr distinct
  have lookups : ∀ name, SortedMap.get? (indexFiles files').1 name =
      SortedMap.get? (indexFiles files).1 name := by
    intro name
    refine Option.ext fun f => ?_
    rw [get?_indexFiles_eq_some distinct', get?_indexFiles_eq_some distinct, perm.mem_iff]
  have imports : importsIn (indexFiles files').1 = importsIn (indexFiles files).1 := by
    funext name
    rw [importsIn, importsIn, lookups]
  have given : ∀ name, SortedMap.contains (indexFiles files').1 name =
      SortedMap.contains (indexFiles files).1 name := by
    intro name
    rw [SortedMap.contains, SortedMap.contains, lookups]
  have edges : Imports (indexFiles files').1 = Imports (indexFiles files).1 := by
    funext a b
    simp only [Imports, imports, given]
  have publicEdges : PublicImports (indexFiles files').1 = PublicImports (indexFiles files).1 := by
    funext a b
    simp only [PublicImports, imports, given]
  have sees : Sees (indexFiles files').1 = Sees (indexFiles files).1 := by
    funext a b
    simp only [Sees, edges, publicEdges]
  obtain ⟨visibility, run, entries⟩ := computeVisibility_sees files'
    (by rw [publicEdges]; exact publicly)
  refine ⟨visibility, run, fun f member => ?_⟩
  obtain ⟨vis, stored, content⟩ := entries f (perm.mem_iff.mpr member)
  exact ⟨vis, stored, by simpa only [sees] using content⟩

/-- A file and one it imports. -/
def importingPair : List File :=
  [{ name := "a.proto", imports := [⟨{}, "b.proto", .default⟩] }, { name := "b.proto" }]

theorem computeVisibility_iff_pair :
    ∃ visibility, computeVisibility (indexFiles importingPair).1 importingPair = some visibility ∧
      ∀ f ∈ importingPair, EntryOk (indexFiles importingPair).1 visibility f.name :=
  (computeVisibility_iff importingPair fun name cycle => by
    have only : ∀ x y, Imports (indexFiles importingPair).1 x y → x = "a.proto" ∧ y = "b.proto" := by
      rintro x y ⟨imp, member, rfl, _⟩
      simp only [importsIn, importingPair, indexFiles, List.foldl_cons, List.foldl_nil,
        get?_mapInsert, SortedMap.get?_nil] at member
      split at member
      · rename_i f found
        split at found
        · cases found
          simp at member
        · split at found
          · rename_i first
            cases found
            simp_all
          · cases found
      · cases member
    obtain ⟨_, first, _⟩ := Relation.TransGen.head'_iff.mp cycle
    obtain ⟨_, _, last⟩ := Relation.TransGen.tail'_iff.mp cycle
    have impossible := (only _ _ first).1.symm.trans (only _ _ last).2
    revert impossible
    decide).1

end TptProto.Compiler
