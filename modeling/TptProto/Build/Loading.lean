import Mathlib.Data.List.Nodup
import TptProto.Build.Incremental
import TptProto.Foundation.DepthFirst
import TptProto.Foundation.Logged

/-! What resolution loads: each file once, the entry last, and every import under its own path
exactly where the path is the logical name of what is found for it. -/

namespace TptProto.Build

open TptProto.Core TptProto.Foundation

variable {Parsed : Type} (tools : Toolchain Parsed) (disk : Node) (includes : List Path)

section Graph

/-- What the parser makes of the file at a path. -/
def parsedAt (path : Path) : Option Parsed :=
  (disk.readToString path).map (tools.parseFile (logicalName disk path includes))

/-- The file at one path imports another path, found at a third. -/
def ImportsAs (path : Path) (imported : List Char) (dep : Path) : Prop :=
  ∃ parsed, parsedAt tools disk includes path = some parsed ∧ imported ∈ tools.imports parsed ∧
    findImported disk imported includes = .ok dep

def Imports (path dep : Path) : Prop := ∃ imported, ImportsAs tools disk includes path imported dep

/-- The path leads to a file that the entry imports, itself or through others. -/
def Reaches (entry path : Path) : Prop := Relation.ReflTransGen (Imports tools disk includes) entry path

/-- No file that the entry reaches imports itself, directly or through others. -/
def Acyclic (entry : Path) : Prop :=
  ∀ path dep, Reaches tools disk includes entry path →
    Relation.TransGen (Imports tools disk includes) path dep →
      disk.canonicalize dep ≠ disk.canonicalize path

/-- The returned file is the one that is found for an imported path, has its contents and bears the
path as its name. -/
structure Provides (imported : List Char) (file : ResolvedFile Parsed) : Prop where
  name : file.name = imported
  found : ∃ dep src, findImported disk imported includes = .ok dep ∧
    disk.canonicalize file.sourcePath = disk.canonicalize dep ∧
    disk.readToString dep = some src ∧ file.parsed = tools.parseFile imported src

/-- Every import of a returned file is provided by a returned file, on acyclic graphs by one in front
of it. -/
structure Loaded (entry : Path) (out : List (ResolvedFile Parsed)) : Prop where
  complete : ∀ file ∈ out, ∀ imported ∈ tools.imports file.parsed,
    ∃ found ∈ out, Provides tools disk includes imported found
  ordered : Acyclic tools disk includes entry →
    ∀ before file after, out = before ++ file :: after → ∀ imported ∈ tools.imports file.parsed,
      ∃ found ∈ before, Provides tools disk includes imported found

/-- What is found for an import has the imported path as its logical name, and is the entry if that is
the entry's name. -/
def NamedAsImported (entry : Path) : Prop :=
  ∀ path imported dep, Reaches tools disk includes entry path →
    ImportsAs tools disk includes path imported dep →
      logicalName disk dep includes = imported ∧
        (imported = logicalName disk entry includes → disk.canonicalize dep = disk.canonicalize entry)

end Graph

section Once

/-- `visit`, with the paths of the files that are parsed. -/
def visitLogged : Nat → Path → Ctx Parsed → Logged IoError Path (Ctx Parsed)
  | fuel, path, ctx =>
    let name := logicalName disk path includes
    if name ∈ ctx.seen then pure ctx
    else match disk.readToString path with
      | none => .lift (.err (.reading path))
      | some src => match fuel with
        | 0 => .lift .outOfFuel
        | fuel + 1 =>
          let parsed := tools.parseFile name src
          .writing path do
            let ctx ← (tools.imports parsed).foldlM (fun ctx path => do
              let dep ← .lift (findImported disk path includes)
              visitLogged fuel dep ctx) { ctx with seen := name :: ctx.seen }
            pure { ctx with out := ctx.out ++ [⟨name, path, parsed⟩] }

/-- `resolve_and_parse`, with the paths of the files that are parsed, also where it fails. -/
def resolveLogged (entry : Path) : Logged IoError Path (List (ResolvedFile Parsed)) := do
  let ctx ← visitLogged tools disk includes (filesAt [] disk).length entry {}
  pure ctx.out

theorem visitLogged_outcome (fuel : Nat) (path : Path) (ctx : Ctx Parsed) :
    (visitLogged tools disk includes fuel path ctx).outcome =
      visit tools disk includes fuel path ctx := by
  induction fuel generalizing path ctx with
  | zero =>
    unfold visitLogged visit
    by_cases met : logicalName disk path includes ∈ ctx.seen
    · rw [if_pos met, if_pos met, Logged.pure_outcome]
    · rw [if_neg met, if_neg met]
      cases disk.readToString path <;> rfl
  | succ fuel ih =>
    unfold visitLogged visit
    by_cases met : logicalName disk path includes ∈ ctx.seen
    · rw [if_pos met, if_pos met, Logged.pure_outcome]
    · rw [if_neg met, if_neg met]
      cases disk.readToString path with
      | none => rfl
      | some src =>
        simp only [Logged.writing_outcome, Logged.bind_outcome, Logged.foldlM_outcome,
          Logged.lift_outcome, Logged.pure_outcome, ih]

theorem resolveLogged_outcome (entry : Path) :
    (resolveLogged tools disk includes entry).outcome = resolveAndParse tools disk includes entry := by
  rw [resolveLogged, resolveAndParse, Logged.bind_outcome, visitLogged_outcome]
  rfl

/-- A visit parses files with new names only, and marks them. -/
private theorem visitLogged_once (fuel : Nat) (path : Path) (ctx : Ctx Parsed) :
    Logged.Once (fun path => logicalName disk path includes) Ctx.seen ctx
      (visitLogged tools disk includes fuel path ctx) := by
  induction fuel generalizing path ctx with
  | zero =>
    unfold visitLogged
    by_cases met : logicalName disk path includes ∈ ctx.seen
    · rw [if_pos met]
      exact .pure ctx
    · rw [if_neg met]
      cases disk.readToString path with
      | none => exact .silent rfl fun _ => nofun
      | some src => exact .silent rfl fun _ => nofun
  | succ fuel ih =>
    unfold visitLogged
    by_cases met : logicalName disk path includes ∈ ctx.seen
    · rw [if_pos met]
      exact .pure ctx
    · rw [if_neg met]
      cases disk.readToString path with
      | none => exact .silent rfl fun _ => nofun
      | some src =>
        refine .writing { ctx with seen := logicalName disk path includes :: ctx.seen } met
          (fun _ => List.mem_cons) ?_
        refine (Logged.Once.foldlM (fun ctx imported => ?_) _ _).bind fun ctx _ => ?_
        · cases located : findImported disk imported includes with
          | ok dep => exact ih dep ctx
          | err | panic | outOfFuel => exact .silent rfl fun _ => nofun
        · exact .silent rfl fun _ done _ member => by cases done; exact member

/-- Only files that are there are parsed. -/
private theorem visitLogged_readable (fuel : Nat) (path : Path) (ctx : Ctx Parsed) :
    ∀ parsed ∈ (visitLogged tools disk includes fuel path ctx).log,
      ∃ src, disk.readToString parsed = some src := by
  intro parsed member
  induction fuel generalizing path ctx with
  | zero =>
    unfold visitLogged at member
    by_cases met : logicalName disk path includes ∈ ctx.seen
    · rw [if_pos met] at member
      cases member
    · rw [if_neg met] at member
      cases found : disk.readToString path <;> rw [found] at member <;> cases member
  | succ fuel ih =>
    unfold visitLogged at member
    by_cases met : logicalName disk path includes ∈ ctx.seen
    · rw [if_pos met] at member
      cases member
    · rw [if_neg met] at member
      cases readable : disk.readToString path with
      | none =>
        rw [readable] at member
        cases member
      | some src =>
        rw [readable] at member
        rcases List.mem_cons.mp member with rfl | member
        · exact ⟨src, readable⟩
        · rcases Logged.mem_bind_log member with folded | ⟨_, _, nothing⟩
          · obtain ⟨ctx', imported, _, logged⟩ := Logged.mem_foldlM_log folded
            rcases Logged.mem_bind_log logged with nothing | ⟨dep, _, logged⟩
            · cases nothing
            · exact ih dep ctx' logged
          · cases nothing

/-- No file is parsed twice, by whatever paths it is reached. -/
theorem resolveLogged_nodup (entry : Path) :
    ((resolveLogged tools disk includes entry).log.map disk.canonicalize).Nodup := by
  have once := visitLogged_once tools disk includes (filesAt [] disk).length entry {}
  have readable := visitLogged_readable tools disk includes (filesAt [] disk).length entry {}
  rw [resolveLogged, Logged.bind_pure_log]
  refine List.Nodup.map_on (fun first inside second inside' same => ?_) (List.Nodup.of_map _ once.distinct)
  obtain ⟨src, read⟩ := readable first inside
  have named := (@read_congr disk first includes second src same read).2
  exact List.inj_on_of_nodup_map once.distinct inside inside' named

end Once

section Visits

variable {tools disk includes} {entry path : Path} {fuel : Nat} {ctx next : Ctx Parsed}

/-- The fold over the imports of a file. -/
abbrev visitImports (tools : Toolchain Parsed) (disk : Node) (includes : List Path) (fuel : Nat)
    (imported : List (List Char)) (ctx : Ctx Parsed) : Outcome IoError (Ctx Parsed) :=
  imported.foldlM (fun ctx path => do
    let dep ← findImported disk path includes
    visit tools disk includes fuel dep ctx) ctx

theorem visit_ne_panic : visit tools disk includes fuel path ctx ≠ .panic := by
  induction fuel generalizing path ctx with
  | zero =>
    unfold visit
    by_cases met : logicalName disk path includes ∈ ctx.seen
    · rw [if_pos met]
      rintro ⟨⟩
    · rw [if_neg met]
      cases disk.readToString path <;> rintro ⟨⟩
  | succ fuel ih =>
    unfold visit
    by_cases met : logicalName disk path includes ∈ ctx.seen
    · rw [if_pos met]
      rintro ⟨⟩
    · rw [if_neg met]
      cases disk.readToString path with
      | none => rintro ⟨⟩
      | some src =>
        refine Outcome.bind_ne_panic (Outcome.foldlM_ne_panic (fun ctx imported => ?_) _ _) fun _ => ?_
        · apply Outcome.bind_ne_panic _ fun dep => ih
          unfold findImported
          split <;> rintro ⟨⟩
        · rintro ⟨⟩

/-- The two ways a visit can go. -/
theorem visit_cases (run : visit tools disk includes fuel path ctx = .ok next) :
    (logicalName disk path includes ∈ ctx.seen ∧ next = ctx) ∨
      (logicalName disk path includes ∉ ctx.seen ∧ ∃ less parsed inner, fuel = less + 1 ∧
        parsedAt tools disk includes path = some parsed ∧
        visitImports tools disk includes less (tools.imports parsed)
          { ctx with seen := logicalName disk path includes :: ctx.seen } = .ok inner ∧
        next = { inner with out := inner.out ++ [⟨logicalName disk path includes, path, parsed⟩] }) := by
  unfold visit at run
  by_cases met : logicalName disk path includes ∈ ctx.seen
  · rw [if_pos met] at run
    cases run
    exact .inl ⟨met, rfl⟩
  · rw [if_neg met] at run
    cases readable : disk.readToString path with
    | none =>
      rw [readable] at run
      cases run
    | some src =>
      rw [readable] at run
      cases fuel with
      | zero => cases run
      | succ less =>
        obtain ⟨inner, folded, done⟩ := Outcome.bind_eq_ok.mp run
        cases done
        exact .inr ⟨met, less, _, inner, rfl, by rw [parsedAt, readable, Option.map_some], folded, rfl⟩

/-- A fold over imports visits what is found for each. -/
theorem visitImports_cons {first : List Char} {rest : List (List Char)}
    (run : visitImports tools disk includes fuel (first :: rest) ctx = .ok next) :
    ∃ dep middle, findImported disk first includes = .ok dep ∧
      visit tools disk includes fuel dep ctx = .ok middle ∧
        visitImports tools disk includes fuel rest middle = .ok next := by
  rw [visitImports, List.foldlM_cons] at run
  obtain ⟨middle, visited, later⟩ := Outcome.bind_eq_ok.mp run
  obtain ⟨dep, found, visited⟩ := Outcome.bind_eq_ok.mp visited
  exact ⟨dep, middle, found, visited, later⟩

/-- The file is read where the entry leads, and each of its imports is found and has been met. -/
structure Settled (tools : Toolchain Parsed) (disk : Node) (includes : List Path) (entry : Path)
    (seen : List (List Char)) (file : ResolvedFile Parsed) : Prop where
  reaches : Reaches tools disk includes entry file.sourcePath
  name : file.name = logicalName disk file.sourcePath includes
  parsed : parsedAt tools disk includes file.sourcePath = some file.parsed
  imports : ∀ imported ∈ tools.imports file.parsed, ∃ dep,
    findImported disk imported includes = .ok dep ∧ logicalName disk dep includes ∈ seen

/-- What a visit adds: files with new and distinct names, which are now met. -/
def Extends (tools : Toolchain Parsed) (disk : Node) (includes : List Path) (entry : Path)
    (ctx next : Ctx Parsed) : Prop :=
  ∃ added : List (ResolvedFile Parsed), next.out = ctx.out ++ added ∧
    (∀ n, n ∈ next.seen ↔ n ∈ ctx.seen ∨ n ∈ added.map (·.name)) ∧
    (added.map (·.name)).Nodup ∧ (∀ n ∈ added.map (·.name), n ∉ ctx.seen) ∧
    ∀ file ∈ added, Settled tools disk includes entry next.seen file

namespace Extends

variable {first second third : Ctx Parsed}

theorem refl (ctx : Ctx Parsed) : Extends tools disk includes entry ctx ctx :=
  ⟨[], by simp, by simp, List.nodup_nil, nofun, nofun⟩

theorem seen (step : Extends tools disk includes entry first second) :
    ∀ n ∈ first.seen, n ∈ second.seen := by
  obtain ⟨added, _, met, _⟩ := step
  exact fun n member => (met n).mpr (.inl member)

theorem trans (step : Extends tools disk includes entry first second)
    (step' : Extends tools disk includes entry second third) :
    Extends tools disk includes entry first third := by
  have grown := step'.seen
  obtain ⟨added, out, met, distinct, fresh, settled⟩ := step
  obtain ⟨added', out', met', distinct', fresh', settled'⟩ := step'
  refine ⟨added ++ added', ?_, fun n => ?_, ?_, fun n member => ?_, fun file member => ?_⟩
  · rw [out', out, List.append_assoc]
  · rw [met', met, List.map_append, List.mem_append, or_assoc]
  · rw [List.map_append, List.nodup_append]
    refine ⟨distinct, distinct', fun a early b late same => ?_⟩
    subst same
    exact fresh' a late ((met a).mpr (.inr early))
  · rw [List.map_append, List.mem_append] at member
    rcases member with early | late
    · exact fresh n early
    · exact fun before => fresh' n late ((met n).mpr (.inl before))
  · rcases List.mem_append.mp member with early | late
    · have done := settled file early
      exact { done with
        imports := fun imported inside => (done.imports imported inside).imp
          fun _ found => ⟨found.1, grown _ found.2⟩ }
    · exact settled' file late

end Extends

/-- A file is settled last, once its imports are. -/
theorem Extends.settle {inner : Ctx Parsed} {parsed : Parsed}
    (reaches : Reaches tools disk includes entry path)
    (read : parsedAt tools disk includes path = some parsed)
    (new : logicalName disk path includes ∉ ctx.seen)
    (inside : Extends tools disk includes entry
      { ctx with seen := logicalName disk path includes :: ctx.seen } inner)
    (imports : ∀ imported ∈ tools.imports parsed, ∃ dep,
      findImported disk imported includes = .ok dep ∧ logicalName disk dep includes ∈ inner.seen) :
    Extends tools disk includes entry ctx
      { inner with out := inner.out ++ [⟨logicalName disk path includes, path, parsed⟩] } := by
  obtain ⟨added, out, met, distinct, fresh, settled⟩ := inside
  let file : ResolvedFile Parsed := ⟨logicalName disk path includes, path, parsed⟩
  have names : (added ++ [file]).map (·.name) =
      added.map (·.name) ++ [logicalName disk path includes] := List.map_append
  refine ⟨added ++ [file], ?_, fun n => ?_, ?_, fun n member => ?_, fun file member => ?_⟩
  · change inner.out ++ _ = _
    rw [out, List.append_assoc]
  · rw [names, List.mem_append, List.mem_singleton]
    refine (met n).trans ?_
    rw [List.mem_cons, or_comm (a := n = _), or_assoc, or_comm (a := n = _)]
  · rw [names, List.nodup_append]
    refine ⟨distinct, List.nodup_cons.mpr ⟨List.not_mem_nil, List.nodup_nil⟩, fun a early b late same => ?_⟩
    subst same
    cases List.mem_singleton.mp late
    exact fresh _ early List.mem_cons_self
  · rw [names, List.mem_append, List.mem_singleton] at member
    rcases member with early | rfl
    · exact fun before => fresh n early (List.mem_cons_of_mem _ before)
    · exact new
  · rcases List.mem_append.mp member with early | last
    · exact settled file early
    · cases List.mem_singleton.mp last
      exact ⟨reaches, rfl, read, imports⟩

private theorem visitImports_extends {imported : List (List Char)}
    (each : ∀ {dep : Path} {ctx next : Ctx Parsed}, Reaches tools disk includes entry dep →
      visit tools disk includes fuel dep ctx = .ok next →
        Extends tools disk includes entry ctx next ∧ logicalName disk dep includes ∈ next.seen)
    (reached : ∀ name ∈ imported, ∀ dep, findImported disk name includes = .ok dep →
      Reaches tools disk includes entry dep)
    (run : visitImports tools disk includes fuel imported ctx = .ok next) :
    Extends tools disk includes entry ctx next ∧ ∀ name ∈ imported, ∃ dep,
      findImported disk name includes = .ok dep ∧ logicalName disk dep includes ∈ next.seen := by
  induction imported generalizing ctx with
  | nil =>
    cases run
    exact ⟨.refl _, nofun⟩
  | cons first rest ih =>
    obtain ⟨dep, middle, found, visited, later⟩ := visitImports_cons run
    obtain ⟨head, met⟩ := each (reached first List.mem_cons_self dep found) visited
    obtain ⟨tail, others⟩ := ih (fun name inside => reached name (List.mem_cons_of_mem _ inside)) later
    refine ⟨head.trans tail, fun name member => ?_⟩
    rcases List.mem_cons.mp member with rfl | inside
    · exact ⟨dep, found, tail.seen _ met⟩
    · exact others name inside

/-- A visit adds settled files, and the one at its path has been met. -/
theorem visit_extends (reaches : Reaches tools disk includes entry path)
    (run : visit tools disk includes fuel path ctx = .ok next) :
    Extends tools disk includes entry ctx next ∧ logicalName disk path includes ∈ next.seen := by
  induction fuel generalizing path ctx next with
  | zero =>
    rcases visit_cases run with ⟨met, rfl⟩ | ⟨_, _, _, _, impossible, _⟩
    · exact ⟨.refl _, met⟩
    · cases impossible
  | succ fuel ih =>
    rcases visit_cases run with ⟨met, rfl⟩ | ⟨new, less, parsed, inner, same, read, folded, rfl⟩
    · exact ⟨.refl _, met⟩
    · cases same
      obtain ⟨inside, imports⟩ := visitImports_extends (fun reaches visited => ih reaches visited)
        (fun name member dep found => reaches.tail ⟨name, parsed, read, member, found⟩) folded
      exact ⟨inside.settle reaches read new imports, inside.seen _ List.mem_cons_self⟩

end Visits

section Returned

variable {tools disk includes} {entry : Path} {out : List (ResolvedFile Parsed)}

/-- What resolution returns: settled files with distinct names, the entry last. -/
structure Returned (tools : Toolchain Parsed) (disk : Node) (includes : List Path) (entry : Path)
    (out : List (ResolvedFile Parsed)) : Prop where
  distinct : (out.map (·.name)).Nodup
  settled : ∀ file ∈ out, Settled tools disk includes entry (out.map (·.name)) file
  last : ∃ front parsed, parsedAt tools disk includes entry = some parsed ∧
    out = front ++ [⟨logicalName disk entry includes, entry, parsed⟩]

theorem resolveAndParse_returned (run : resolveAndParse tools disk includes entry = .ok out) :
    Returned tools disk includes entry out := by
  obtain ⟨ctx, visited, done⟩ := Outcome.bind_eq_ok.mp run
  cases done
  obtain ⟨⟨added, same, met, distinct, _, settled⟩, _⟩ := visit_extends .refl visited
  have all : ctx.out = added := same
  refine ⟨?_, fun file member => ?_, ?_⟩
  · rw [all]
    exact distinct
  · rw [all] at member ⊢
    have done := settled file member
    exact { done with
      imports := fun imported inside => (done.imports imported inside).imp
        fun _ found => ⟨found.1, ((met _).mp found.2).resolve_left List.not_mem_nil⟩ }
  · rcases visit_cases visited with ⟨impossible, _⟩ | ⟨_, _, parsed, inner, _, read, _, rfl⟩
    · cases impossible
    · exact ⟨inner.out, parsed, read, rfl⟩

/-- A name belongs to one returned file. -/
theorem Returned.unique (returned : Returned tools disk includes entry out)
    {first second : ResolvedFile Parsed} (inside : first ∈ out) (inside' : second ∈ out)
    (same : first.name = second.name) : first = second :=
  List.inj_on_of_nodup_map returned.distinct inside inside' same

/-- Two paths to one file are parsed alike. -/
theorem parsedAt_congr {path other : Path} {parsed : Parsed}
    (same : disk.canonicalize path = disk.canonicalize other)
    (read : parsedAt tools disk includes path = some parsed) :
    parsedAt tools disk includes other = some parsed ∧
      logicalName disk path includes = logicalName disk other includes := by
  obtain ⟨src, readable, rfl⟩ := Option.map_eq_some_iff.mp read
  obtain ⟨also, named⟩ := @read_congr disk path includes other src same readable
  exact ⟨by rw [parsedAt, also, Option.map_some, named], named⟩

/-- Where all imports are provided, every file that the entry leads to is returned. -/
theorem Returned.reached (returned : Returned tools disk includes entry out)
    (complete : ∀ file ∈ out, ∀ imported ∈ tools.imports file.parsed,
      ∃ found ∈ out, Provides tools disk includes imported found)
    {path : Path} (reaches : Reaches tools disk includes entry path) :
    ∃ file ∈ out, disk.canonicalize file.sourcePath = disk.canonicalize path ∧
      parsedAt tools disk includes path = some file.parsed := by
  induction reaches with
  | refl =>
    obtain ⟨front, parsed, read, rfl⟩ := returned.last
    exact ⟨_, List.mem_append_right _ List.mem_cons_self, rfl, read⟩
  | tail _ edge ih =>
    obtain ⟨file, member, _, read⟩ := ih
    obtain ⟨imported, parsed, read', inside, located⟩ := edge
    cases read.symm.trans read'
    obtain ⟨found, here, provides⟩ := complete file member imported inside
    obtain ⟨dep, src, located', same, _, _⟩ := provides.found
    cases Outcome.ok.inj (located.symm.trans located')
    exact ⟨found, here, same, (parsedAt_congr same (returned.settled found here).parsed).1⟩

/-- Where all imports are provided, what is found for them bears their names. -/
theorem Returned.named (returned : Returned tools disk includes entry out)
    (complete : ∀ file ∈ out, ∀ imported ∈ tools.imports file.parsed,
      ∃ found ∈ out, Provides tools disk includes imported found) :
    NamedAsImported tools disk includes entry := by
  rintro path imported dep reaches ⟨parsed, read, inside, located⟩
  obtain ⟨file, member, _, read'⟩ := returned.reached complete reaches
  cases read.symm.trans read'
  obtain ⟨found, here, provides⟩ := complete file member imported inside
  obtain ⟨dep', src, located', same, _, _⟩ := provides.found
  cases Outcome.ok.inj (located.symm.trans located')
  have settled := returned.settled found here
  have name := (parsedAt_congr same settled.parsed).2
  rw [← settled.name, provides.name] at name
  refine ⟨name.symm, fun entryName => ?_⟩
  obtain ⟨front, parsed, _, whole⟩ := returned.last
  have entryHere : (⟨logicalName disk entry includes, entry, parsed⟩ : ResolvedFile Parsed) ∈ out := by
    rw [whole]
    exact List.mem_append_right _ List.mem_cons_self
  have one := returned.unique here entryHere (provides.name.trans entryName)
  rw [← same, one]

/-- Files of one name that the entry leads to are one file. -/
theorem NamedAsImported.same (named : NamedAsImported tools disk includes entry) {first second : Path}
    (reaches : Reaches tools disk includes entry first)
    (reaches' : Reaches tools disk includes entry second)
    (same : logicalName disk first includes = logicalName disk second includes) :
    disk.canonicalize first = disk.canonicalize second := by
  rcases Relation.ReflTransGen.cases_tail reaches with rfl | ⟨path, before, imported, edge⟩
  · rcases Relation.ReflTransGen.cases_tail reaches' with rfl | ⟨path', before', imported', edge'⟩
    · rfl
    · obtain ⟨name, entry⟩ := named path' imported' second before' edge'
      exact (entry (name.symm.trans same.symm)).symm
  · obtain ⟨name, isEntry⟩ := named path imported first before edge
    rcases Relation.ReflTransGen.cases_tail reaches' with rfl | ⟨path', before', imported', edge'⟩
    · exact isEntry (name.symm.trans same)
    · obtain ⟨name', _⟩ := named path' imported' second before' edge'
      have one : imported = imported' := name.symm.trans (same.trans name')
      subst one
      obtain ⟨_, _, _, located⟩ := edge
      obtain ⟨_, _, _, located'⟩ := edge'
      cases Outcome.ok.inj (located.symm.trans located')
      rfl

/-- Where what is found for imports bears their names, all imports are provided. -/
theorem Returned.complete (returned : Returned tools disk includes entry out)
    (named : NamedAsImported tools disk includes entry) :
    ∀ file ∈ out, ∀ imported ∈ tools.imports file.parsed,
      ∃ found ∈ out, Provides tools disk includes imported found := by
  intro file member imported inside
  have settled := returned.settled file member
  obtain ⟨dep, located, met⟩ := settled.imports imported inside
  obtain ⟨found, here, name⟩ := List.mem_map.mp met
  have edge : ImportsAs tools disk includes file.sourcePath imported dep :=
    ⟨file.parsed, settled.parsed, inside, located⟩
  have bears := (named _ imported dep settled.reaches edge).1
  have settled' := returned.settled found here
  have same := named.same settled'.reaches (settled.reaches.tail ⟨imported, edge⟩)
    (settled'.name.symm.trans name)
  have nameHere : found.name = imported := name.trans bears
  obtain ⟨src, readable, parsed⟩ := Option.map_eq_some_iff.mp (parsedAt_congr same settled'.parsed).1
  exact ⟨found, here, nameHere, dep, src, located, same, readable, by rw [← parsed, bears]⟩

end Returned

section Order

open Foundation.DepthFirst (Marks Topological)

variable {tools disk includes} {entry path : Path} {out : List (ResolvedFile Parsed)} {fuel : Nat}
  {ctx next : Ctx Parsed} {marks : Marks (List Char)}

/-- The imports of the returned file with a name. -/
def importsNamed (tools : Toolchain Parsed) (out : List (ResolvedFile Parsed)) (name : List Char) :
    List (List Char) :=
  match out.find? (·.name = name) with
  | some file => tools.imports file.parsed
  | none => []

/-- The search has finished the files that resolution has, and met those that it has. -/
structure Tracks (marks : Marks (List Char)) (ctx : Ctx Parsed) : Prop where
  finished : ctx.out.map (·.name) = marks.finished.reverse
  seen : ∀ n, n ∈ ctx.seen ↔ n ∈ marks.active ∨ n ∈ marks.finished

private theorem visitImports_searches {imported : List (List Char)}
    (succ : List Char → List (List Char))
    (each : ∀ name ∈ imported, ∀ dep, findImported disk name includes = .ok dep →
      ∀ (ctx next : Ctx Parsed) marks, visit tools disk includes fuel dep ctx = .ok next →
        Tracks marks ctx → ∃ marks', DepthFirst.visit succ fuel name marks = some marks' ∧
          Tracks marks' next)
    (run : visitImports tools disk includes fuel imported ctx = .ok next) (tracks : Tracks marks ctx) :
    ∃ marks', DepthFirst.visitAll succ fuel imported marks = some marks' ∧ Tracks marks' next := by
  induction imported generalizing ctx marks with
  | nil =>
    cases run
    exact ⟨marks, rfl, tracks⟩
  | cons first rest ih =>
    obtain ⟨dep, middle, found, visited, later⟩ := visitImports_cons run
    obtain ⟨marks', moved, tracks'⟩ :=
      each first List.mem_cons_self dep found ctx middle marks visited tracks
    obtain ⟨marks'', folded, tracks''⟩ :=
      ih (fun name inside => each name (List.mem_cons_of_mem _ inside)) later tracks'
    refine ⟨marks'', ?_, tracks''⟩
    rw [DepthFirst.visitAll, List.foldlM_cons, moved]
    exact folded

/-- Where what is found for imports bears their names, a visit is a step of a depth-first search
through the names. -/
theorem visit_searches {succ : List Char → List (List Char)}
    (named : NamedAsImported tools disk includes entry)
    (agrees : ∀ path parsed, Reaches tools disk includes entry path →
      parsedAt tools disk includes path = some parsed →
        succ (logicalName disk path includes) = tools.imports parsed)
    (reaches : Reaches tools disk includes entry path)
    (run : visit tools disk includes fuel path ctx = .ok next) (tracks : Tracks marks ctx) :
    ∃ marks', DepthFirst.visit succ fuel (logicalName disk path includes) marks = some marks' ∧
      Tracks marks' next := by
  induction fuel generalizing path ctx next marks with
  | zero =>
    rcases visit_cases run with ⟨met, rfl⟩ | ⟨_, _, _, _, impossible, _⟩
    · obtain ⟨hits, moved⟩ := DepthFirst.visit_met ((tracks.seen _).mp met)
      exact ⟨_, moved, tracks.finished, tracks.seen⟩
    · cases impossible
  | succ fuel ih =>
    rcases visit_cases run with ⟨met, rfl⟩ | ⟨new, less, parsed, inner, same, read, folded, rfl⟩
    · obtain ⟨hits, moved⟩ := DepthFirst.visit_met ((tracks.seen _).mp met)
      exact ⟨_, moved, tracks.finished, tracks.seen⟩
    · cases same
      have fresh := not_or.mp fun met => new ((tracks.seen _).mpr met)
      have entered : Tracks { marks with active := logicalName disk path includes :: marks.active }
          { ctx with seen := logicalName disk path includes :: ctx.seen } := by
        refine ⟨tracks.finished, fun n => ?_⟩
        simp only [List.mem_cons, tracks.seen, or_assoc]
      obtain ⟨inside, searched, tracks'⟩ := visitImports_searches succ (by
        intro name member dep found ctx next marks visited tracks
        have edge : ImportsAs tools disk includes path name dep := ⟨parsed, read, member, found⟩
        have moved := ih (reaches.tail ⟨name, edge⟩) visited tracks
        rw [(named path name dep reaches edge).1] at moved
        exact moved) folded entered
      rw [← agrees path parsed reaches read] at searched
      have active := (DepthFirst.visitAll_grows searched).active
      refine ⟨_, DepthFirst.visit_new fresh.1 fresh.2 searched, ?_, fun n => ?_⟩
      · simp only [List.map_append, List.map_cons, List.map_nil, List.reverse_cons, tracks'.finished]
      · refine (tracks'.seen n).trans ?_
        rw [active, List.mem_cons, List.mem_cons, or_assoc, or_left_comm]

private theorem importsNamed_eq (returned : Returned tools disk includes entry out)
    {file : ResolvedFile Parsed} (member : file ∈ out) :
    importsNamed tools out file.name = tools.imports file.parsed := by
  unfold importsNamed
  cases found : out.find? (·.name = file.name) with
  | none =>
    have missing := List.find?_eq_none.mp found file member
    simp at missing
  | some other =>
    have same := List.find?_some found
    rw [returned.unique (List.mem_of_find?_eq_some found) member (by simpa using same)]

private theorem mem_importsNamed {name imported : List Char}
    (member : imported ∈ importsNamed tools out name) :
    ∃ file ∈ out, file.name = name ∧ imported ∈ tools.imports file.parsed := by
  unfold importsNamed at member
  split at member
  · rename_i file found
    have same := List.find?_some found
    exact ⟨file, List.mem_of_find?_eq_some found, by simpa using same, member⟩
  · cases member

/-- A path through the names is one through the files. -/
private theorem transGen_imports (returned : Returned tools disk includes entry out)
    (named : NamedAsImported tools disk includes entry) {last : List Char}
    (reaches : Reaches tools disk includes entry path)
    (through : Relation.TransGen (DepthFirst.Edge (importsNamed tools out))
      (logicalName disk path includes) last) :
    ∃ dep, Relation.TransGen (Imports tools disk includes) path dep ∧
      logicalName disk dep includes = last := by
  have step {path : Path} {imported : List Char} (reaches : Reaches tools disk includes entry path)
      (edge : imported ∈ importsNamed tools out (logicalName disk path includes)) :
      ∃ dep, Imports tools disk includes path dep ∧ logicalName disk dep includes = imported := by
    obtain ⟨file, member, name, inside⟩ := mem_importsNamed edge
    have settled := returned.settled file member
    obtain ⟨dep, located, _⟩ := settled.imports imported inside
    have same := named.same settled.reaches reaches (settled.name.symm.trans name)
    have edge : ImportsAs tools disk includes path imported dep :=
      ⟨file.parsed, (parsedAt_congr same settled.parsed).1, inside, located⟩
    exact ⟨dep, ⟨imported, edge⟩, (named path imported dep reaches edge).1⟩
  induction through with
  | single edge =>
    obtain ⟨dep, imports, name⟩ := step reaches edge
    exact ⟨dep, .single imports, name⟩
  | tail _ edge ih =>
    obtain ⟨middle, before, name⟩ := ih
    subst name
    obtain ⟨dep, imports, name⟩ := step (reaches.trans before.to_reflTransGen) edge
    exact ⟨dep, before.tail imports, name⟩

/-- Where what is found for imports bears their names, on acyclic graphs the names of imports are
finished before those of their importers. -/
theorem Returned.topological (returned : Returned tools disk includes entry out)
    (run : resolveAndParse tools disk includes entry = .ok out)
    (named : NamedAsImported tools disk includes entry) (acyclic : Acyclic tools disk includes entry) :
    Topological (importsNamed tools out) (out.map (·.name)).reverse := by
  obtain ⟨ctx, visited, done⟩ := Outcome.bind_eq_ok.mp run
  cases done
  have agrees (path : Path) (parsed : Parsed) (reaches : Reaches tools disk includes entry path)
      (read : parsedAt tools disk includes path = some parsed) :
      importsNamed tools ctx.out (logicalName disk path includes) = tools.imports parsed := by
    obtain ⟨file, member, same, read'⟩ := returned.reached (returned.complete named) reaches
    cases read.symm.trans read'
    have settled := returned.settled file member
    rw [← importsNamed_eq returned member, settled.name, (parsedAt_congr same settled.parsed).2]
  have empty : Tracks ({} : Marks (List Char)) ({} : Ctx Parsed) := ⟨rfl, fun _ => by simp⟩
  obtain ⟨marks, searched, tracks⟩ := visit_searches named agrees .refl visited empty
  have start : DepthFirst.Inv (importsNamed tools ctx.out) {} :=
    ⟨by simp, by simp, by simp, fun _ => trivial⟩
  have inv := (DepthFirst.visit_inv start nofun searched).1
  rw [tracks.finished, List.reverse_reverse]
  apply inv.order
  apply Classical.byContradiction
  intro cyclic
  obtain ⟨name, cycle⟩ := inv.sound cyclic
  obtain ⟨_, edge, _⟩ := Relation.TransGen.head'_iff.mp cycle
  obtain ⟨file, member, same, _⟩ := mem_importsNamed edge
  have settled := returned.settled file member
  rw [← same, settled.name] at cycle
  obtain ⟨dep, imports, again⟩ := transGen_imports returned named settled.reaches cycle
  exact acyclic file.sourcePath dep settled.reaches imports
    (named.same (settled.reaches.trans imports.to_reflTransGen) settled.reaches again)

/-- Where what is found for imports bears their names, on acyclic graphs each is provided by a file in
front. -/
theorem Returned.ordered (returned : Returned tools disk includes entry out)
    (run : resolveAndParse tools disk includes entry = .ok out)
    (named : NamedAsImported tools disk includes entry) (acyclic : Acyclic tools disk includes entry)
    {before after : List (ResolvedFile Parsed)} {file : ResolvedFile Parsed}
    (split : out = before ++ file :: after) {imported : List Char}
    (inside : imported ∈ tools.imports file.parsed) :
    ∃ found ∈ before, Provides tools disk includes imported found := by
  have topological := returned.topological run named acyclic
  have member : file ∈ out := by
    rw [split]
    exact List.mem_append_right _ List.mem_cons_self
  have names : (out.map (·.name)).reverse =
      (after.map (·.name)).reverse ++ file.name :: (before.map (·.name)).reverse := by
    rw [split]
    simp
  rw [names] at topological
  rw [← importsNamed_eq returned member] at inside
  obtain ⟨front, early, name⟩ := List.mem_map.mp (List.mem_reverse.mp (topological.split imported inside))
  rw [importsNamed_eq returned member] at inside
  obtain ⟨found, here, provides⟩ := returned.complete named file member imported inside
  have same := returned.unique here (by rw [split]; exact List.mem_append_left _ early)
    (provides.name.trans name.symm)
  exact ⟨front, early, same ▸ provides⟩

end Order

/-- Resolution ends, without parsing a file twice, and if it succeeds the entry comes last. All imports
are then provided, on acyclic graphs in front of their importers, if and only if what is found for them
bears their names. -/
theorem resolve_and_parse_iff (entry : Path) :
    (resolveAndParse tools disk includes entry).Returns ∧
    ((resolveLogged tools disk includes entry).outcome = resolveAndParse tools disk includes entry ∧
      ((resolveLogged tools disk includes entry).log.map disk.canonicalize).Nodup) ∧
    ∀ out, resolveAndParse tools disk includes entry = .ok out →
      (∃ front parsed, parsedAt tools disk includes entry = some parsed ∧
        out = front ++ [⟨logicalName disk entry includes, entry, parsed⟩]) ∧
      (Loaded tools disk includes entry out ↔ NamedAsImported tools disk includes entry) := by
  refine ⟨?_, ⟨resolveLogged_outcome tools disk includes entry,
    resolveLogged_nodup tools disk includes entry⟩, fun out run => ?_⟩
  · exact Outcome.returns_iff.mpr ⟨Outcome.bind_ne_panic visit_ne_panic fun _ => nofun,
      resolveAndParse_ne_outOfFuel tools disk includes entry⟩
  · have returned := resolveAndParse_returned run
    refine ⟨returned.last, fun loaded => returned.named loaded.complete, fun named => ?_⟩
    exact ⟨returned.complete named, fun acyclic before file after split imported inside =>
      returned.ordered run named acyclic split inside⟩

section Samples

deriving instance DecidableEq for ResolvedFile

private def protoFile (name text : String) : Name × Node :=
  (name.toList, .file (Slice.ofBytes (asBytes text)))

private def dirOf (name : String) (entries : List (Name × Node)) : Name × Node :=
  (name.toList, .dir entries)

private def pathOf (names : List String) : Path := names.map String.toList

private def returnedFile (path : List String) (name text : String) : ResolvedFile (List Char) :=
  ⟨name.toList, pathOf path, listingTools.parseFile name.toList text⟩

/-- An entry with two imports, of which the second imports the first. -/
theorem resolve_and_parse_chain :
    let disk := Node.dir [dirOf "inc" [
      protoFile "entry.proto" "import \"b.proto\"; import \"a/c.proto\";", protoFile "b.proto" "",
      dirOf "a" [protoFile "c.proto" "import \"b.proto\";"]]]
    let includes := [pathOf ["inc"]]
    let entry := pathOf ["inc", "entry.proto"]
    let out := [returnedFile ["inc", "b.proto"] "b.proto" "",
      returnedFile ["inc", "a", "c.proto"] "a/c.proto" "import \"b.proto\";",
      returnedFile ["inc", "entry.proto"] "entry.proto" "import \"b.proto\"; import \"a/c.proto\";"]
    resolveAndParse listingTools disk includes entry = .ok out ∧
      (Loaded listingTools disk includes entry out ↔ NamedAsImported listingTools disk includes entry) := by
  intro disk includes entry out
  have run : resolveAndParse listingTools disk includes entry = .ok out := by decide +kernel
  exact ⟨run, ((resolve_and_parse_iff listingTools disk includes entry).2.2 out run).2⟩

/-- A file below two of the directories is named after the first and found in the second. -/
private def nested : Node :=
  .dir [dirOf "inc" [protoFile "entry.proto" "import \"b.proto\";", dirOf "a" [protoFile "b.proto" ""]]]

/-- A file outside of all directories has the name of one inside. -/
private def outside : Node :=
  .dir [protoFile "b.proto" "import \"b.proto\";", dirOf "inc" [protoFile "b.proto" "message B \x7b\x7d"]]

/-- The import of `b.proto` is not provided, once because the file found for it has another name, and
once because another file has that name. -/
theorem not_resolve_and_parse_loads :
    (∃ out, resolveAndParse listingTools nested [pathOf ["inc"], pathOf ["inc", "a"]]
        (pathOf ["inc", "entry.proto"]) = .ok out ∧
      ¬ Loaded listingTools nested [pathOf ["inc"], pathOf ["inc", "a"]]
        (pathOf ["inc", "entry.proto"]) out) ∧
    ∃ out, resolveAndParse listingTools outside [pathOf ["inc"]] (pathOf ["b.proto"]) = .ok out ∧
      ¬ Loaded listingTools outside [pathOf ["inc"]] (pathOf ["b.proto"]) out := by
  refine ⟨⟨[returnedFile ["inc", "a", "b.proto"] "a/b.proto" "",
    returnedFile ["inc", "entry.proto"] "entry.proto" "import \"b.proto\";"], by decide +kernel, ?_⟩,
    [returnedFile ["b.proto"] "b.proto" "import \"b.proto\";"], by decide +kernel, ?_⟩
  · intro loaded
    obtain ⟨found, member, provides⟩ := loaded.complete
      (returnedFile ["inc", "entry.proto"] "entry.proto" "import \"b.proto\";") (by decide)
      "b.proto".toList (by decide +kernel)
    have other : ∀ file ∈ [returnedFile ["inc", "a", "b.proto"] "a/b.proto" "",
        returnedFile ["inc", "entry.proto"] "entry.proto" "import \"b.proto\";"],
        file.name ≠ "b.proto".toList := by decide
    exact other found member provides.name
  · intro loaded
    obtain ⟨found, member, provides⟩ := loaded.complete
      (returnedFile ["b.proto"] "b.proto" "import \"b.proto\";") (by decide) "b.proto".toList
      (by decide +kernel)
    obtain ⟨dep, src, located, same, _, _⟩ := provides.found
    have here : findImported outside "b.proto".toList [pathOf ["inc"]] =
        .ok (pathOf ["inc", "b.proto"]) := by decide +kernel
    cases Outcome.ok.inj (here.symm.trans located)
    cases List.mem_singleton.mp member
    revert same
    decide +kernel

end Samples

end TptProto.Build
