import TptProto.Compiler.Symbols

/-! Whether an accepted set of files declares each name once. Collisions between files and
at the top level of a file are reported; those inside a message are not. -/

namespace TptProto.Compiler

open TptProto.Foundation TptProto.Descriptor TptProto.Language
open FileContext (entryName)

section Across

variable {displayFloat : UInt64 → String}

private theorem stored_names {names : List String} {state : SymbolState} {owner name : String} :
    SortedMap.get? (names.foldl (insertSymbol owner) state).symbols name = none ↔
      SortedMap.get? state.symbols name = none ∧ name ∉ names := by
  rw [insertAll_symbols]
  by_cases member : name ∈ names <;> simp [member]

/-- No error is reported exactly if no file declares a name of an earlier one. -/
theorem collect_disjoint {files : List File} (distinct : (files.map File.name).Nodup)
    {state : SymbolState × List (String × List String)}
    (fresh : ∀ f ∈ files, ∀ name, SortedMap.get? state.1.symbols name ≠ some f.name) :
    NoErrors ((files.map fun f => (compile displayFloat f).1).foldl collectFile state).1.findings ↔
      NoErrors state.1.findings ∧
        files.Pairwise (fun f g => List.Disjoint (declaredNames f) (declaredNames g)) ∧
        ∀ f ∈ files, ∀ name ∈ declaredNames f, SortedMap.get? state.1.symbols name = none := by
  induction files generalizing state with
  | nil => simp
  | cons f rest ih =>
    rw [List.map_cons, List.nodup_cons] at distinct
    have fresh' : ∀ g ∈ rest, ∀ name,
        SortedMap.get? (collectFile state (compile displayFloat f).1).1.symbols name ≠ some g.name := by
      intro g member name
      rw [collectFile_compile]
      dsimp only
      rw [insertAll_symbols]
      have other : f.name ≠ g.name := fun same =>
        distinct.1 (List.mem_map.mpr ⟨g, member, same.symm⟩)
      cases known : SortedMap.get? state.1.symbols name with
      | some owner =>
        have differs := fresh g (List.mem_cons_of_mem _ member) name
        rw [known] at differs
        simpa using differs
      | none =>
        by_cases inside : name ∈ declaredNames f <;> simp [inside, other]
    have own : (∀ name ∈ declaredNames f, ∀ owner,
        SortedMap.get? state.1.symbols name = some owner → owner = f.name) ↔
          ∀ name ∈ declaredNames f, SortedMap.get? state.1.symbols name = none := by
      refine forall₂_congr fun name _ => ?_
      cases known : SortedMap.get? state.1.symbols name with
      | none => simp
      | some owner =>
        have differs := fresh f List.mem_cons_self name
        rw [known] at differs
        simpa using differs
    rw [List.map_cons, List.foldl_cons, ih distinct.2 fresh', collectFile_compile]
    simp only [insertAll_findings, own, stored_names, List.pairwise_cons, List.forall_mem_cons,
      forall_and, List.Disjoint]
    constructor
    · rintro ⟨⟨none, mine⟩, apart, theirs, others⟩
      exact ⟨none, ⟨fun g member name inF inG => others g member name inG inF, apart⟩, mine, theirs⟩
    · rintro ⟨none, ⟨others, apart⟩, mine, theirs⟩
      exact ⟨⟨none, mine⟩, apart, theirs, fun g member name inG inF => others g member inF inG⟩

theorem Accepted.disjoint {files : List File} (accepted : Accepted displayFloat files) :
    files.Pairwise fun f g => List.Disjoint (declaredNames f) (declaredNames g) :=
  ((collect_disjoint accepted.names_distinct (by simp)).mp
    (accepted_iff.mp accepted).2.2.2.2.1).2.1

end Across

section Inside

theorem repeated_eq_nil {seen : List String} {items : List (String × Diagnostic)}
    (none : repeated seen items = []) :
    (items.map Prod.fst).Nodup ∧ ∀ item ∈ items, item.1 ∉ seen := by
  induction items generalizing seen with
  | nil => simp
  | cons item rest ih =>
    obtain ⟨name, diagnostic⟩ := item
    rw [repeated] at none
    split at none
    · cases none
    · rename_i unseen
      obtain ⟨distinct, fresh⟩ := ih none
      refine ⟨?_, ?_⟩
      · rw [List.map_cons, List.nodup_cons]
        refine ⟨fun member => ?_, distinct⟩
        obtain ⟨other, inside, same⟩ := List.mem_map.mp member
        exact fresh other inside (same ▸ List.mem_cons_self)
      · intro other member
        rcases List.mem_cons.mp member with rfl | inside
        · simpa using unseen
        · exact fun earlier => fresh other inside (List.mem_cons_of_mem _ earlier)

theorem repeated_errors {seen : List String} {items : List (String × Diagnostic)}
    (errors : ∀ item ∈ items, item.2.severity = .error) :
    ∀ d ∈ repeated seen items, d.severity = .error := by
  induction items generalizing seen with
  | nil => simp [repeated]
  | cons item rest ih =>
    obtain ⟨name, diagnostic⟩ := item
    have later := fun item member => errors item (List.mem_cons_of_mem _ member)
    rw [repeated]
    split
    · intro d member
      rcases List.mem_cons.mp member with rfl | inside
      · exact errors _ List.mem_cons_self
      · exact ih later d inside
    · exact ih later

/-- Repeated names are reported, as errors. -/
theorem distinct_of_repeated {items : List (String × Diagnostic)}
    (errors : ∀ item ∈ items, item.2.severity = .error)
    (none : hasErrors (repeated [] items) = false) : (items.map Prod.fst).Nodup := by
  have nothing : repeated [] items = [] := by
    refine List.eq_nil_iff_forall_not_mem.mpr fun d member => ?_
    have silent := List.any_eq_false.mp none d member
    simp [repeated_errors errors d member] at silent
  exact (repeated_eq_nil nothing).1

theorem Accepted.top_distinct {displayFloat : UInt64 → String} {files : List File}
    (accepted : Accepted displayFloat files) {f : File} (member : f ∈ files) :
    (topNames f).Nodup := by
  have silent := accepted.converted member
  simp only [compile, checkDuplicates, hasErrors_append, Bool.or_eq_false_iff] at silent
  have distinct := distinct_of_repeated (by
    intro item inside
    rcases List.mem_append.mp inside with message | enum
    · obtain ⟨m, _, rfl⟩ := List.mem_map.mp message
      rfl
    · obtain ⟨e, _, rfl⟩ := List.mem_map.mp enum
      rfl) silent.1.1.1.1
  simpa [topNames, Function.comp_def] using distinct

/-- Groups of names below distinct declarations of one scope do not meet. -/
private theorem groups_nodup (pathPrefix : String) (groups : List (String × List String))
    (distinct : (groups.map Prod.fst).Nodup) (spelled : ∀ g ∈ groups, Spelled g.1)
    (inner : ∀ g ∈ groups, g.2.Nodup)
    (below : ∀ g ∈ groups, ∀ x ∈ g.2, Beneath (scopeChars pathPrefix) g.1 x) :
    (groups.flatMap Prod.snd).Nodup := by
  rw [List.nodup_flatMap]
  refine ⟨inner, ?_⟩
  rw [List.Nodup, List.pairwise_map] at distinct
  refine distinct.imp_of_mem ?_
  intro a b memberA memberB apart x inA inB
  exact apart ((below a memberA x inA).unique (spelled a memberA).2 (spelled b memberB).2
    (below b memberB x inB))

variable {pathPrefix : String}

theorem declaredIn_beneath {m : Message} (filled : m.name.name.toList ≠ [])
    (inner : ∀ entry ∈ within pathPrefix m, ∀ name ∈ localNames entry.2, Spelled name) :
    ∀ x ∈ declaredIn pathPrefix m, Beneath (scopeChars pathPrefix) m.name.name x := by
  induction m using Message.induction generalizing pathPrefix with
  | step m ih =>
    rw [within_eq] at inner
    rw [declaredIn_eq]
    intro x member
    simp only [List.mem_cons, List.mem_append, List.mem_map, List.mem_flatMap] at member
    rcases member with rfl | (⟨mf, _, rfl⟩ | ⟨n, nested, deeper⟩) | ⟨e, _, rfl⟩
    · exact .self _ _
    · exact (Beneath.self _ _).outer filled
    · have name : Spelled n.name.name := inner _ List.mem_cons_self n.name.name (by
        simp only [localNames, List.mem_append, List.mem_map]
        exact .inl (.inr ⟨n, nested, rfl⟩))
      exact (ih n nested name.1 (fun entry below =>
        inner entry (List.mem_cons_of_mem _ (List.mem_flatMap.mpr ⟨n, nested, below⟩)))
          x deeper).outer filled
    · exact (Beneath.self _ _).outer filled

/-- What is declared below a message does not repeat, if in no scope two declarations have
the same simple name. -/
theorem declaredIn_nodup {m : Message} (filled : m.name.name.toList ≠ [])
    (inner : ∀ entry ∈ within pathPrefix m, ∀ name ∈ localNames entry.2, Spelled name)
    (distinct : ∀ entry ∈ within pathPrefix m, (localNames entry.2).Nodup) :
    (declaredIn pathPrefix m).Nodup := by
  induction m using Message.induction generalizing pathPrefix with
  | step m ih =>
    rw [within_eq] at inner distinct
    let fqn := qualify pathPrefix m.name.name
    let single (name : String) : String × List String := (name, [qualify fqn name])
    let groups := m.maps.map (fun mf => single (entryName mf)) ++
      m.nestedMessages.map (fun n => (n.name.name, declaredIn fqn n)) ++
      m.nestedEnums.map fun e => single e.name.name
    have names : groups.map Prod.fst = localNames m := by
      simp [groups, single, localNames, Function.comp_def]
    have body : declaredIn pathPrefix m = fqn :: groups.flatMap Prod.snd := by
      rw [declaredIn_eq]
      simp only [groups, single, List.flatMap_append, List.flatMap_map]
      rw [List.map_eq_flatMap, List.map_eq_flatMap]
    have spelled : ∀ g ∈ groups, Spelled g.1 := fun g member =>
      inner _ List.mem_cons_self g.1 (names ▸ List.mem_map_of_mem member)
    have deeper : ∀ n ∈ m.nestedMessages, ∀ entry ∈ within fqn n,
        entry ∈ (pathPrefix, m) :: m.nestedMessages.flatMap (within fqn) :=
      fun n nested entry below =>
        List.mem_cons_of_mem _ (List.mem_flatMap.mpr ⟨n, nested, below⟩)
    have nestedFilled : ∀ n ∈ m.nestedMessages, n.name.name.toList ≠ [] := fun n nested =>
      (spelled (n.name.name, declaredIn fqn n) (by
        simp only [groups, List.mem_append, List.mem_map]
        exact .inl (.inr ⟨n, nested, rfl⟩))).1
    have below : ∀ g ∈ groups, ∀ x ∈ g.2, Beneath (scopeChars fqn) g.1 x := by
      intro g member x inside
      simp only [groups, List.mem_append, List.mem_map] at member
      rcases member with (⟨mf, _, rfl⟩ | ⟨n, nested, rfl⟩) | ⟨e, _, rfl⟩
      · rw [List.mem_singleton.mp inside]
        exact .self _ _
      · exact declaredIn_beneath (nestedFilled n nested)
          (fun entry lower => inner entry (deeper n nested entry lower)) x inside
      · rw [List.mem_singleton.mp inside]
        exact .self _ _
    have inGroup : ∀ g ∈ groups, g.2.Nodup := by
      intro g member
      simp only [groups, List.mem_append, List.mem_map] at member
      rcases member with (⟨mf, _, rfl⟩ | ⟨n, nested, rfl⟩) | ⟨e, _, rfl⟩
      · exact List.nodup_singleton _
      · exact ih n nested (nestedFilled n nested)
          (fun entry lower => inner entry (deeper n nested entry lower))
          (fun entry lower => distinct entry (deeper n nested entry lower))
      · exact List.nodup_singleton _
    rw [body, List.nodup_cons]
    refine ⟨fun member => ?_, groups_nodup fqn groups (names ▸ distinct _ List.mem_cons_self) spelled
      inGroup below⟩
    -- every name of the body is longer than the message's own
    obtain ⟨g, inGroups, inside⟩ := List.mem_flatMap.mp member
    obtain ⟨tail, chars, _⟩ := below g inGroups fqn inside
    have longer := congrArg List.length chars
    have own : scopeChars fqn = fqn.toList := scopeChars_qualify filled
    rw [own] at longer
    simp only [List.length_append, List.length_cons] at longer
    omega

/-- The names of a scope's messages appear among all that is declared in them. -/
private theorem heads_sublist (pathPrefix : String) (ms : List Message) :
    (ms.map fun m => qualify pathPrefix m.name.name).Sublist
      (ms.flatMap (declaredIn pathPrefix)) := by
  induction ms with
  | nil => exact List.Sublist.refl _
  | cons m rest ih =>
    rw [List.map_cons, List.flatMap_cons, declaredIn_eq, List.cons_append]
    exact (ih.trans (List.sublist_append_right _ _)).cons_cons _

theorem localNames_nodup {m : Message} (distinct : (declaredIn pathPrefix m).Nodup) :
    ∀ entry ∈ within pathPrefix m, (localNames entry.2).Nodup := by
  induction m using Message.induction generalizing pathPrefix with
  | step m ih =>
    rw [declaredIn_eq, List.nodup_cons] at distinct
    rw [within_eq]
    intro entry member
    rcases List.mem_cons.mp member with rfl | below
    · have chosen := ((List.Sublist.refl (m.maps.map fun mf =>
        qualify (qualify pathPrefix m.name.name) (entryName mf))).append
          (heads_sublist (qualify pathPrefix m.name.name) m.nestedMessages)).append (List.Sublist.refl (m.nestedEnums.map fun e =>
            qualify (qualify pathPrefix m.name.name) e.name.name))
      have mapped := distinct.2.sublist chosen
      refine List.Nodup.of_map (qualify (qualify pathPrefix m.name.name)) ?_
      simpa [localNames, Function.comp_def] using mapped
    · obtain ⟨n, nested, deeper⟩ := List.mem_flatMap.mp below
      have part := (List.nodup_append.mp (List.nodup_append.mp distinct.2).1).2.1
      exact ih n nested ((List.nodup_flatMap.mp part).1 n nested) entry deeper

/-- With identifiers for names, a file declares each name once exactly if in no scope two
declarations have the same simple name. -/
theorem declaredNames_nodup {f : File} (spelled : SpelledFile f) :
    (declaredNames f).Nodup ↔
      (topNames f).Nodup ∧ ∀ entry ∈ fileMessages f, (localNames entry.2).Nodup := by
  constructor
  · intro distinct
    have chosen := (heads_sublist (packageName f) f.messages).append
      (List.Sublist.refl (f.enums.map fun e => qualify (packageName f) e.name.name))
    refine ⟨?_, fun entry member => ?_⟩
    · refine List.Nodup.of_map (qualify (packageName f)) ?_
      simpa [topNames, Function.comp_def] using distinct.sublist chosen
    · obtain ⟨m, top, below⟩ := List.mem_flatMap.mp member
      exact localNames_nodup ((List.nodup_flatMap.mp (List.nodup_append.mp distinct).1).1 m top)
        entry below
  · rintro ⟨top, inner⟩
    let pkg := packageName f
    let groups := f.messages.map (fun m => (m.name.name, declaredIn pkg m)) ++
      f.enums.map fun e => (e.name.name, [qualify pkg e.name.name])
    have names : groups.map Prod.fst = topNames f := by
      simp [groups, topNames, Function.comp_def]
    have all : declaredNames f = groups.flatMap Prod.snd := by
      simp only [declaredNames, groups, List.flatMap_append, List.flatMap_map, pkg]
      rw [List.map_eq_flatMap]
    have topSpelled : ∀ g ∈ groups, Spelled g.1 := fun g member =>
      spelled.top g.1 (names ▸ List.mem_map_of_mem member)
    have filled : ∀ m ∈ f.messages, m.name.name.toList ≠ [] := fun m member =>
      (topSpelled (m.name.name, declaredIn pkg m) (by
        simp only [groups, List.mem_append, List.mem_map]
        exact .inl ⟨m, member, rfl⟩)).1
    have lower : ∀ m ∈ f.messages, ∀ entry ∈ within pkg m, entry ∈ fileMessages f :=
      fun m member entry below => List.mem_flatMap.mpr ⟨m, member, below⟩
    rw [all]
    refine groups_nodup pkg groups (names ▸ top) topSpelled ?_ ?_
    · intro g member
      simp only [groups, List.mem_append, List.mem_map] at member
      rcases member with ⟨m, member, rfl⟩ | ⟨e, _, rfl⟩
      · exact declaredIn_nodup (filled m member)
          (fun entry below => spelled.inner entry (lower m member entry below))
          (fun entry below => inner entry (lower m member entry below))
      · exact List.nodup_singleton _
    · intro g member x inside
      simp only [groups, List.mem_append, List.mem_map] at member
      rcases member with ⟨m, member, rfl⟩ | ⟨e, _, rfl⟩
      · exact declaredIn_beneath (filled m member)
          (fun entry below => spelled.inner entry (lower m member entry below)) x inside
      · rw [List.mem_singleton.mp inside]
        exact .self _ _

end Inside

/-- An accepted set declares each full name once exactly if no single file repeats one; with
identifiers for names, exactly if no message declares two nested messages, map entries or
enums of one simple name. -/
theorem accepted_unique_iff (displayFloat : UInt64 → String) (files : List File)
    (accepted : Accepted displayFloat files) :
    ((files.flatMap declaredNames).Nodup ↔ ∀ f ∈ files, (declaredNames f).Nodup) ∧
    ((∀ f ∈ files, SpelledFile f) →
      ((files.flatMap declaredNames).Nodup ↔
        ∀ f ∈ files, ∀ entry ∈ fileMessages f, (localNames entry.2).Nodup)) := by
  have perFile : (files.flatMap declaredNames).Nodup ↔ ∀ f ∈ files, (declaredNames f).Nodup := by
    rw [List.nodup_flatMap]
    exact ⟨fun both => both.1, fun each => ⟨each, accepted.disjoint⟩⟩
  refine ⟨perFile, fun spelled => perFile.trans (forall₂_congr fun f member => ?_)⟩
  rw [declaredNames_nodup (spelled f member)]
  exact ⟨fun both => both.2, fun inner => ⟨accepted.top_distinct member, inner⟩⟩

/-- A message without content. -/
def emptyMessage (name : String) : Message where
  span := {}
  name := ⟨name, {}⟩
  fields := []
  oneofs := []
  maps := []
  nestedMessages := []
  nestedEnums := []
  nestedExtends := []
  reservedRanges := []
  reservedNames := []
  extensionRanges := []
  options := []
  isGroup := false

/-- `message Outer { message A {} enum A { X = 0; } }` in proto3. -/
def collidingFile : File where
  name := "a.proto"
  syntaxDecl := some ⟨{}, "proto3"⟩
  messages := [{ emptyMessage "Outer" with
    nestedMessages := [emptyMessage "A"]
    nestedEnums := [⟨{}, ⟨"A", {}⟩, [⟨{}, ⟨"X", {}⟩, 0, []⟩], [], [], [], false⟩] }]

theorem accepted_unique_iff_colliding :
    (([collidingFile].flatMap declaredNames).Nodup ↔
        ∀ f ∈ [collidingFile], (declaredNames f).Nodup) ∧
    (([collidingFile].flatMap declaredNames).Nodup ↔
        ∀ f ∈ [collidingFile], ∀ entry ∈ fileMessages f, (localNames entry.2).Nodup) :=
  have both := accepted_unique_iff (fun _ => "") [collidingFile] (by decide +kernel)
  ⟨both.1, both.2 fun f member => by
    rw [List.mem_singleton.mp member]
    exact ⟨by decide +kernel, by decide +kernel, by decide +kernel⟩⟩

theorem not_accepted_unique :
    ¬ ∀ (displayFloat : UInt64 → String) (files : List File), Accepted displayFloat files →
      (files.flatMap declaredNames).Nodup := by
  intro unique
  have distinct := unique (fun _ => "") [collidingFile] (by decide +kernel)
  revert distinct
  decide +kernel

end TptProto.Compiler
