import TptProto.Compiler.Accepted
import TptProto.Compiler.Traverse
import TptProto.Compiler.Visibility

/-! The names a set of files declares, and what the symbol table makes of them. -/

namespace TptProto.Compiler

open TptProto.Foundation TptProto.Descriptor TptProto.Language

section Names

/-- The characters of a scope's name, with its leading dot; nothing for the root. -/
def scopeChars (pathPrefix : String) : List Char :=
  match pathPrefix.toList with
  | [] => []
  | ['.'] => []
  | '.' :: rest => '.' :: rest
  | other => '.' :: other

theorem qualify_toList (pathPrefix name : String) :
    (qualify pathPrefix name).toList = scopeChars pathPrefix ++ '.' :: name.toList := by
  unfold qualify scopeChars
  split
  · rename_i rest chars
    rw [chars]
    cases rest with
    | nil => simp
    | cons c tail => simp [String.isEmpty_iff, ← String.toList_inj]
  · rename_i dotless
    by_cases empty : pathPrefix.isEmpty = true
    · have none : pathPrefix = "" := String.isEmpty_iff.mp empty
      subst none
      simp
    · simp only [empty, Bool.false_eq_true, ↓reduceIte, String.toList_append]
      cases chars : pathPrefix.toList with
      | nil =>
        refine absurd ?_ empty
        rw [String.isEmpty_iff, ← String.toList_inj, chars]
        rfl
      | cons c tail =>
        have notDot : c ≠ '.' := fun same => dotless tail (same ▸ chars)
        split <;> simp_all

/-- Below a name that is not empty, the scope's name is the name itself. -/
theorem scopeChars_qualify {pathPrefix name : String} (filled : name.toList ≠ []) :
    scopeChars (qualify pathPrefix name) = (qualify pathPrefix name).toList := by
  have chars : ∃ c rest, (qualify pathPrefix name).toList = '.' :: c :: rest := by
    rw [qualify_toList]
    obtain ⟨c, rest, shape⟩ := List.exists_cons_of_ne_nil filled
    unfold scopeChars
    split
    · exact ⟨c, rest, by rw [shape]; rfl⟩
    · exact ⟨c, rest, by rw [shape]; rfl⟩
    · rename_i tail more _
      obtain ⟨d, others, tailShape⟩ := List.exists_cons_of_ne_nil (l := tail) (by simpa using more)
      exact ⟨d, others ++ '.' :: name.toList, by rw [tailShape]; rfl⟩
    · rename_i more _ _
      obtain ⟨d, others, otherShape⟩ := List.exists_cons_of_ne_nil more
      exact ⟨d, others ++ '.' :: name.toList, by rw [otherShape]; rfl⟩
  obtain ⟨c, rest, shape⟩ := chars
  rw [scopeChars, shape]
  rfl

/-- An identifier as the lexer makes them: not empty and without a dot. -/
def Spelled (name : String) : Prop := name.toList ≠ [] ∧ '.' ∉ name.toList

instance (name : String) : Decidable (Spelled name) :=
  inferInstanceAs (Decidable (name.toList ≠ [] ∧ '.' ∉ name.toList))

/-- A name is that of a declaration in a scope, or lies below it. -/
def Beneath (scope : List Char) (name : String) (x : String) : Prop :=
  ∃ tail, x.toList = scope ++ '.' :: (name.toList ++ tail) ∧ ∀ c ∈ tail.head?, c = '.'

theorem Beneath.self (pathPrefix name : String) :
    Beneath (scopeChars pathPrefix) name (qualify pathPrefix name) :=
  ⟨[], by rw [qualify_toList, List.append_nil], by simp⟩

/-- What lies below a declaration's scope lies below the declaration. -/
theorem Beneath.outer {pathPrefix name inner x : String} (filled : name.toList ≠ [])
    (below : Beneath (scopeChars (qualify pathPrefix name)) inner x) :
    Beneath (scopeChars pathPrefix) name x := by
  obtain ⟨tail, chars, _⟩ := below
  refine ⟨'.' :: (inner.toList ++ tail), ?_, by simp⟩
  rw [chars, scopeChars_qualify filled, qualify_toList]
  simp

private theorem takeWhile_dotless {name tail : List Char} (dotless : '.' ∉ name)
    (stop : ∀ c ∈ tail.head?, c = '.') : (name ++ tail).takeWhile (· ≠ '.') = name := by
  induction name with
  | nil =>
    cases tail with
    | nil => rfl
    | cons c rest => simp [stop c rfl]
  | cons c rest ih =>
    simp only [List.mem_cons, not_or] at dotless
    rw [List.cons_append, List.takeWhile_cons, if_pos (by simpa using Ne.symm dotless.1),
      ih dotless.2]

theorem Beneath.unique {scope : List Char} {a b x : String} (first : '.' ∉ a.toList)
    (second : '.' ∉ b.toList) (left : Beneath scope a x) (right : Beneath scope b x) : a = b := by
  obtain ⟨s, charsA, stopA⟩ := left
  obtain ⟨t, charsB, stopB⟩ := right
  have same := charsA.symm.trans charsB
  rw [List.append_cancel_left_eq] at same
  have heads := congrArg (List.takeWhile (· ≠ '.')) (List.cons.inj same).2
  rw [takeWhile_dotless first stopA, takeWhile_dotless second stopB] at heads
  exact String.toList_inj.mp heads

end Names

section Declared

open FileContext (entryName)

mutual

/-- The full names of a message, of the entries of its maps and of all it declares. -/
def declaredIn (pathPrefix : String) : Message → List String
  | ⟨_, name, _, _, maps, nestedMessages, nestedEnums, _, _, _, _, _, _⟩ =>
    let fqn := qualify pathPrefix name.name
    fqn :: (maps.map (fun mf => qualify fqn (entryName mf)) ++ declaredInAll fqn nestedMessages ++
      nestedEnums.map fun e => qualify fqn e.name.name)

def declaredInAll (pathPrefix : String) : List Message → List String
  | [] => []
  | m :: rest => declaredIn pathPrefix m ++ declaredInAll pathPrefix rest

end

theorem declaredInAll_eq (pathPrefix : String) (ms : List Message) :
    declaredInAll pathPrefix ms = ms.flatMap (declaredIn pathPrefix) := by
  induction ms with
  | nil => rw [declaredInAll, List.flatMap_nil]
  | cons m rest ih => rw [declaredInAll, List.flatMap_cons, ih]

theorem declaredIn_eq (pathPrefix : String) (m : Message) :
    declaredIn pathPrefix m = qualify pathPrefix m.name.name ::
      (m.maps.map (fun mf => qualify (qualify pathPrefix m.name.name) (entryName mf)) ++
        m.nestedMessages.flatMap (declaredIn (qualify pathPrefix m.name.name)) ++
        m.nestedEnums.map fun e => qualify (qualify pathPrefix m.name.name) e.name.name) := by
  rw [← declaredInAll_eq]
  cases m
  rw [declaredIn]

/-- The full names of all messages, map entries and enums a file declares. -/
def declaredNames (f : File) : List String :=
  f.messages.flatMap (declaredIn (packageName f)) ++
    f.enums.map fun e => qualify (packageName f) e.name.name

/-- The simple names declared directly in a message. -/
def localNames (m : Message) : List String :=
  m.maps.map entryName ++ m.nestedMessages.map (fun n => n.name.name) ++
    m.nestedEnums.map fun e => e.name.name

/-- The simple names declared directly in a file. -/
def topNames (f : File) : List String :=
  f.messages.map (fun m => m.name.name) ++ f.enums.map fun e => e.name.name

/-- All simple names of a file's messages, map entries and enums are identifiers, and its
package starts with one. -/
structure SpelledFile (f : File) : Prop where
  package : (packageName f).toList.head? ≠ some '.'
  top : ∀ name ∈ topNames f, Spelled name
  inner : ∀ entry ∈ fileMessages f, ∀ name ∈ localNames entry.2, Spelled name

end Declared

section Table

variable {fileName : String}

theorem insertAll_symbols (names : List String) (state : SymbolState) (name : String) :
    SortedMap.get? (names.foldl (insertSymbol fileName) state).symbols name =
      (SortedMap.get? state.symbols name).or (if name ∈ names then some fileName else none) := by
  induction names generalizing state with
  | nil => simp
  | cons first rest ih =>
    rw [List.foldl_cons, ih]
    have stored : SortedMap.get? (insertSymbol fileName state first).symbols name =
        (SortedMap.get? state.symbols name).or (if name = first then some fileName else none) := by
      unfold insertSymbol
      dsimp only
      split
      · rename_i prev known
        have unchanged : SortedMap.get? state.symbols name =
            (SortedMap.get? state.symbols name).or (if name = first then some fileName else none) := by
          by_cases same : name = first
          · rw [same, known]
            rfl
          · simp [same]
        split <;> exact unchanged
      · rename_i unknown
        rw [get?_mapInsert]
        by_cases same : name = first
        · simp [same, unknown]
        · simp [same, Ne.symm same]
    rw [stored, Option.or_assoc]
    by_cases same : name = first <;> simp [same]

theorem insertAll_byFile (names : List String) (state : SymbolState) (name : String) :
    name ∈ (names.foldl (insertSymbol fileName) state).byFile ↔
      name ∈ state.byFile ∨ name ∈ names := by
  induction names generalizing state with
  | nil => simp
  | cons first rest ih =>
    have stored : (insertSymbol fileName state first).byFile = setInsert state.byFile first := by
      unfold insertSymbol
      dsimp only
      split
      · split <;> rfl
      · rfl
    rw [List.foldl_cons, ih, stored, mem_setInsert, List.mem_cons, or_assoc]

theorem insertAll_findings (names : List String) (state : SymbolState) :
    NoErrors (names.foldl (insertSymbol fileName) state).findings ↔
      NoErrors state.findings ∧ ∀ name ∈ names, ∀ owner,
        SortedMap.get? state.symbols name = some owner → owner = fileName := by
  induction names generalizing state with
  | nil => simp
  | cons first rest ih =>
    have head : NoErrors (insertSymbol fileName state first).findings ↔
        NoErrors state.findings ∧ ∀ owner,
          SortedMap.get? state.symbols first = some owner → owner = fileName := by
      unfold insertSymbol
      dsimp only
      cases known : SortedMap.get? state.symbols first with
      | none => simp
      | some prev =>
        by_cases same : prev = fileName
        · simp [same]
        · simp only [ne_eq, same, not_false_eq_true, ↓reduceIte, NoErrors.append]
          refine and_congr_right fun _ => ?_
          simp [NoErrors, Finding.error, Diagnostic.error, same]
    have kept : ∀ name, SortedMap.get? (insertSymbol fileName state first).symbols name =
        (SortedMap.get? state.symbols name).or (if name = first then some fileName else none) := by
      intro name
      simpa using insertAll_symbols [first] state name
    rw [List.foldl_cons, ih, head, and_assoc, List.forall_mem_cons]
    refine and_congr_right fun _ => and_congr_right fun first' => ?_
    refine forall₂_congr fun name _ => ?_
    rw [kept]
    by_cases same : name = first
    · subst same
      cases known : SortedMap.get? state.symbols name with
      | none => simp
      | some owner => simp
    · simp [same]

private theorem collect_converted (cx : FileContext) {ms : List Message}
    (collected : ∀ n ∈ ms, ∀ path scope state,
      collectMessage fileName scope (cx.convertMessage path n).1 state =
        (declaredIn scope n).foldl (insertSymbol fileName) state)
    (path scope : String) (state : SymbolState) :
    (ms.map fun n => (cx.convertMessage path n).1).foldl
        (fun state n => collectMessage fileName scope n state) state =
      (ms.flatMap (declaredIn scope)).foldl (insertSymbol fileName) state := by
  induction ms generalizing state with
  | nil => rfl
  | cons n rest ih =>
    rw [List.map_cons, List.foldl_cons, List.flatMap_cons, List.foldl_append,
      collected n List.mem_cons_self, ih fun x member => collected x (List.mem_cons_of_mem _ member)]

/-- The symbols of a converted message are the names it declares. -/
theorem collectMessage_convert (cx : FileContext) (m : Message) (path scope : String)
    (state : SymbolState) :
    collectMessage fileName scope (cx.convertMessage path m).1 state =
      (declaredIn scope m).foldl (insertSymbol fileName) state := by
  induction m using Message.induction generalizing path scope state with
  | step m ih =>
    have entries : ∀ (maps : List MapField) (scope : String) (state : SymbolState),
        (maps.map cx.convertEntry).foldl (fun state n => collectMessage fileName scope n state)
          state = (maps.map fun mf => qualify scope (FileContext.entryName mf)).foldl
            (insertSymbol fileName) state := by
      intro maps scope state
      rw [List.foldl_map, List.foldl_map]
      rfl
    rw [collectMessage_eq, declaredIn_eq, FileContext.convertMessage_fst]
    simp only [Option.getD_some, List.foldl_append, List.foldl_cons, entries,
      collect_converted cx ih, each, List.foldl_map]
    rfl

theorem collectSymbols_compile (displayFloat : UInt64 → String) (f : File) (state : SymbolState) :
    collectSymbols (compile displayFloat f).1 fileName state =
      (declaredNames f).foldl (insertSymbol fileName) state := by
  have package : (f.package.map fun p => p.name).getD "" = packageName f := rfl
  simp only [collectSymbols, compile, FileContext.convertMessages_eq, each, collectMessages_eq,
    collect_converted (fileContext displayFloat f) fun n _ path scope state =>
      collectMessage_convert (fileContext displayFloat f) n path scope state,
    package, declaredNames, List.foldl_append, List.foldl_map]
  rfl

/-- One more file: its names are entered under the file's own name. -/
theorem collectFile_compile (displayFloat : UInt64 → String) (f : File)
    (state : SymbolState × List (String × List String)) :
    collectFile state (compile displayFloat f).1 =
      let collected := (declaredNames f).foldl (insertSymbol f.name)
        { state.1 with byFile := (SortedMap.get? state.2 f.name).getD [] }
      (collected, mapInsert state.2 f.name collected.byFile) := by
  have name : (compile displayFloat f).1.name.getD "" = f.name := rfl
  simp only [collectFile, name, collectSymbols_compile]

end Table

section Seen

variable {displayFloat : UInt64 → String}

private theorem collected_names (files : List File) (state : SymbolState × List (String × List String))
    (owner name : String) :
    name ∈ (SortedMap.get? ((files.map fun f => (compile displayFloat f).1).foldl collectFile state).2
        owner).getD [] ↔
      name ∈ (SortedMap.get? state.2 owner).getD [] ∨
        ∃ f ∈ files, f.name = owner ∧ name ∈ declaredNames f := by
  induction files generalizing state with
  | nil => simp
  | cons f rest ih =>
    rw [List.map_cons, List.foldl_cons, ih, collectFile_compile]
    simp only [get?_mapInsert, List.mem_cons, exists_eq_or_imp]
    by_cases same : f.name = owner
    · simp [same, insertAll_byFile, or_assoc]
    · simp [same]

/-- The names declared in the files of a name. -/
theorem mem_symbolTable {files : List File} {owner name : String} :
    name ∈ (SortedMap.get? (symbolTable displayFloat files).2 owner).getD [] ↔
      ∃ f ∈ files, f.name = owner ∧ name ∈ declaredNames f := by
  rw [symbolTable, collectAll, collected_names]
  simp

theorem mem_visibleNames {tables : List (String × List String)} {visible : Visibility}
    {owner name : String} :
    name ∈ visibleNames tables visible owner ↔
      name ∈ (SortedMap.get? tables owner).getD [] ∨
        ∃ dep ∈ (SortedMap.get? visible owner).getD [],
          name ∈ (SortedMap.get? tables dep).getD [] := by
  unfold visibleNames
  generalize (SortedMap.get? tables owner).getD [] = names
  generalize (SortedMap.get? visible owner).getD [] = deps
  induction deps generalizing names with
  | nil => simp
  | cons dep rest ih =>
    rw [List.foldl_cons, ih]
    simp only [List.mem_cons, exists_eq_or_imp, ← or_assoc]
    refine or_congr_left ?_
    cases SortedMap.get? tables dep with
    | none => simp
    | some others => simp [mem_setExtend]

theorem mem_namesSeenBy {files : List File} {f : File} {name : String} :
    name ∈ namesSeenBy displayFloat files f ↔
      (∃ g ∈ files, g.name = f.name ∧ name ∈ declaredNames g) ∨
        ∃ dep ∈ (SortedMap.get? ((computeVisibility (indexFiles files).1 files).getD []) f.name).getD [],
          ∃ g ∈ files, g.name = dep ∧ name ∈ declaredNames g := by
  rw [namesSeenBy, mem_visibleNames]
  simp only [mem_symbolTable]

/-- With distinct file names and acyclic imports, a file sees what it declares and what the
files visible to it declare. -/
theorem mem_namesSeenBy_sees {files : List File} (distinct : (files.map File.name).Nodup)
    (acyclic : ∀ name, ¬ Relation.TransGen (Imports (indexFiles files).1) name name)
    {f : File} (member : f ∈ files) {name : String} :
    name ∈ namesSeenBy displayFloat files f ↔
      name ∈ declaredNames f ∨
        ∃ g ∈ files, Sees (indexFiles files).1 f.name g.name ∧ name ∈ declaredNames g := by
  have publicly : ∀ name, ¬ Relation.TransGen (PublicImports (indexFiles files).1) name name :=
    fun name cycle => by
    have wider : PublicImports (indexFiles files).1 ≤ Imports (indexFiles files).1 :=
      fun _ _ edge => edge.imports
    exact acyclic name (Relation.TransGen.mono wider _ _ cycle)
  obtain ⟨visibility, run, entries⟩ := computeVisibility_sees files publicly
  obtain ⟨vis, stored, content⟩ := entries f member
  rw [mem_namesSeenBy, run, Option.getD_some, stored, Option.getD_some]
  refine or_congr ?_ ?_
  · constructor
    · rintro ⟨g, memberG, same, declared⟩
      rwa [← List.inj_on_of_nodup_map distinct memberG member same]
    · exact fun declared => ⟨f, member, rfl, declared⟩
  · constructor
    · rintro ⟨_, sees, g, memberG, rfl, declared⟩
      exact ⟨g, memberG, (content _).mp sees, declared⟩
    · rintro ⟨g, memberG, sees, declared⟩
      exact ⟨g.name, (content _).mpr sees, g, memberG, rfl, declared⟩

end Seen

end TptProto.Compiler
