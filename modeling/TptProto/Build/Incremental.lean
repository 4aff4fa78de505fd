import TptProto.Build.Compile
import TptProto.Foundation.Decimal
import TptProto.Foundation.Sequence

/-! Incremental builds against clean builds, over any history of the files. -/

namespace TptProto.Build

open TptProto.Core TptProto.Foundation

namespace Input

variable {Parsed : Type} (tools : Toolchain Parsed)

/-- The same contents under the same configuration, wherever the files are. -/
def SameBytes (first second : Input) : Prop :=
  first.contents = second.contents ∧ first.config = second.config

/-- The files that the input resolves to, parsed. -/
def closure (input : Input) : Outcome IoError (List Parsed) :=
  (resolveAndParse tools input.disk input.includes input.path).map fun files =>
    files.map (·.parsed)

/-- The same input without the flag. -/
def clean (input : Input) : Input :=
  { input with config := { input.config with incremental := false } }

def Compiles (input : Input) : Prop :=
  (moduleName input.path).isSome ∧ ∃ code, compileOne tools input = .ok code

end Input

/-- The input that each module was last built from. -/
abbrev Ledger := Name → Option Input

def Ledger.record (ledger : Ledger) (stem : Name) (input : Input) : Ledger :=
  fun other => if other = stem then some input else ledger other

section Histories

variable {Parsed : Type} (tools : Toolchain Parsed) (digest : List UInt8 → UInt64)

/-- Inputs that a module was last built from, with the same bytes, resolve to the same files.
A module named `mod` shares its file with the index, which only a build that succeeds writes. -/
def Faithful : Ledger → List Input → Prop
  | _, [] => True
  | ledger, input :: rest => ∀ stem, moduleName input.path = some stem →
    (∀ last, input.config.incremental → ledger stem = some last → last.SameBytes input →
      last.closure tools = input.closure tools ∧
      (stem = "mod".toList → ∀ other ∈ rest, other.Compiles tools)) ∧
    (input.Compiles tools → Faithful (ledger.record stem input) rest)

/-- What modules were last built from after the inputs, up to the first that fails. -/
def recorded : Ledger → List Input → Ledger
  | ledger, [] => ledger
  | ledger, input :: rest =>
    match moduleName input.path, compileOne tools input with
    | some stem, .ok _ => recorded (ledger.record stem input) rest
    | _, _ => ledger

namespace Invocation

/-- The inputs of a build, none if some cannot be listed. -/
def inputs (build : Invocation) : List Input :=
  match build.files with
  | .ok files => files.map build.input
  | _ => []

def clean (build : Invocation) : Invocation :=
  { build with config := { build.config with incremental := false } }

end Invocation

def FaithfulHistory : Ledger → List Invocation → Prop
  | _, [] => True
  | ledger, build :: more =>
    Faithful tools ledger build.inputs ∧ FaithfulHistory (recorded tools ledger build.inputs) more

/-- The output directory after a history of builds. -/
def after (builds : List Invocation) (out : OutDir) : OutDir :=
  builds.foldl (fun out build => (build.compileProtos tools digest out).2) out

/-- The hasher tells apart what it is fed in a history. -/
def CollisionFree (all : List Input) : Prop :=
  ∀ first ∈ all, ∀ second ∈ all, digest first.fed = digest second.fed → first.fed = second.fed

end Histories

section Bytes

private theorem chunk_delimited :
    Delimited fun (contents : Slice) word => word = chunk contents where
  nonempty := by
    rintro contents _ rfl
    simp only [chunk, List.length_append, writeFixed64_length]
    omega
  unique := by
    rintro first second _ _ rest rest' rfl rfl same
    simp only [chunk, List.append_assoc] at same
    obtain ⟨prefixes, same⟩ := List.append_inj same (by simp)
    have lengths := congrArg fromLeBytes64 prefixes
    simp only [fromLeBytes64_writeFixed64] at lengths
    have lengths : first.length = second.length := by
      have values := congrArg UInt64.toNat lengths
      have small := first.length_lt
      have small' := second.length_lt
      simp only [UInt64.toNat_ofNat', Slice.length] at values ⊢
      omega
    obtain ⟨bytes, rests⟩ := List.append_inj same lengths
    obtain rfl : first = second := Slice.ext bytes
    exact ⟨rfl, rfl, rests⟩

private theorem sequence_chunks (contents : List Slice) :
    Sequence (fun (contents : Slice) word => word = chunk contents) contents
      (contents.flatMap chunk) := by
  induction contents with
  | nil => exact .nil
  | cons first rest ih => exact .cons rfl ih

private theorem config_fed_inj {first second : BuildConfig} (same : first.fed = second.fed) :
    first = second := by
  have flag : ∀ a b : Bool, (if a then (1 : UInt8) else 0) = (if b then 1 else 0) → a = b := by
    decide
  obtain ⟨grpc, modulePerPackage, incremental⟩ := first
  simp only [BuildConfig.fed, List.map_cons, List.map_nil, List.cons.injEq, and_true] at same
  obtain ⟨grpcs, packages, incrementals⟩ := same
  cases second
  cases flag _ _ grpcs
  cases flag _ _ packages
  cases flag _ _ incrementals
  rfl

/-- The bytes fed determine the contents and the configuration, and nothing else. -/
theorem fed_eq_iff {first second : Input} : first.fed = second.fed ↔ first.SameBytes second := by
  constructor
  · intro same
    obtain ⟨chunks, configs⟩ := List.append_inj' same (by simp [BuildConfig.fed])
    have whole := sequence_chunks first.contents
    rw [chunks] at whole
    exact ⟨whole.unique chunk_delimited (sequence_chunks second.contents), config_fed_inj configs⟩
  · rintro ⟨contents, configs⟩
    rw [Input.fed, Input.fed, contents, configs]

end Bytes

section Files

private theorem rsFile_inj {first second : Name} (same : rsFile first = rsFile second) :
    first = second :=
  (List.append_left_inj _).mp same

private theorem stampFile_inj {first second : Name} (same : stampFile first = stampFile second) :
    first = second :=
  (List.append_left_inj _).mp same

private theorem rsFile_ne_stampFile (first second : Name) : rsFile first ≠ stampFile second := by
  intro same
  have lasts := congrArg List.getLast? same
  simp [rsFile, stampFile] at lasts

private theorem mod_eq_rsFile : "mod.rs".toList = rsFile "mod".toList := rfl

@[simp] theorem OutDir.write_same (out : OutDir) (file : Name) (text : List Char) :
    out.write file text file = some text :=
  if_pos rfl

@[simp] theorem OutDir.write_other {out : OutDir} {file other : Name} {text : List Char}
    (apart : other ≠ file) : out.write file text other = out other :=
  if_neg apart

/-- White space never stands among digits. -/
private theorem trim_digits (n : Nat) : trim (Nat.toDigits 10 n) = Nat.toDigits 10 n := by
  apply trim_of_clean
  intro c member
  have digit := Nat.isDigit_of_mem_toDigits (by decide) (by decide) member
  simp only [Char.isDigit, Bool.and_eq_true, decide_eq_true_eq] at digit
  have low : 48 ≤ c.toNat := digit.1
  have high : c.toNat ≤ 57 := digit.2
  simp only [isWhitespace, Bool.or_eq_false_iff, Bool.and_eq_false_iff, decide_eq_false_iff_not]
  omega

private theorem toDigits_inj {m n : Nat} (same : Nat.toDigits 10 m = Nat.toDigits 10 n) :
    m = n := by
  have read := Decimal.digits?_toDigits m
  rw [same, Decimal.digits?_toDigits] at read
  exact (Option.some.inj read).symm

end Files

section Equivalence

variable {Parsed : Type} {tools : Toolchain Parsed} {digest : List UInt8 → UInt64}
variable {input other : Input} {code : List Char} {out out' : OutDir} {ledger : Ledger}
variable {all inputs : List Input}

@[simp] theorem compileOne_clean : compileOne tools input.clean = compileOne tools input := rfl

/-- The code of an input is read off the files that it resolves to and its configuration. -/
theorem compileOne_eq_ok_iff :
    compileOne tools input = .ok code ↔ ∃ parsed, input.closure tools = .ok parsed ∧
      tools.hasErrors parsed = false ∧
      tools.generate parsed input.config.grpc input.config.modulePerPackage = .ok code := by
  unfold compileOne Input.closure
  simp only [Outcome.bind_eq_ok, Outcome.mapErr_eq_ok, Outcome.map_eq_ok]
  constructor
  · rintro ⟨resolved, found, generated⟩
    refine ⟨_, ⟨resolved, found, rfl⟩, ?_⟩
    cases clean : tools.hasErrors (resolved.map (·.parsed)) with
    | true =>
      rw [clean] at generated
      cases generated
    | false =>
      rw [clean, if_neg Bool.false_ne_true] at generated
      refine ⟨rfl, ?_⟩
      split at generated
      · rename_i same
        cases generated
        exact same
      · cases generated
  · rintro ⟨_, ⟨resolved, found, rfl⟩, clean, generated⟩
    refine ⟨resolved, found, ?_⟩
    rw [clean, if_neg Bool.false_ne_true, generated]

private theorem compileOne_transfer (bytes : other.SameBytes input)
    (closures : other.closure tools = input.closure tools)
    (compiled : compileOne tools other = .ok code) : compileOne tools input = .ok code := by
  rw [compileOne_eq_ok_iff] at compiled ⊢
  rw [closures, bytes.2] at compiled
  exact compiled

/-- Every stamp is of the input that its module was last built from, and the module is there
unless it shares its file with the index. -/
def Stamped (tools : Toolchain Parsed) (digest : List UInt8 → UInt64) (all : List Input)
    (out : OutDir) (ledger : Ledger) : Prop :=
  ∀ stem prev, out (stampFile stem) = some prev → ∃ last code, ledger stem = some last ∧
    last ∈ all ∧ prev = fingerprint digest last ∧ compileOne tools last = .ok code ∧
    (stem ≠ "mod".toList → out (rsFile stem) = some code)

/-- The same files, stamps and the index left aside. -/
def SameModules (out out' : OutDir) : Prop :=
  ∀ file, (∀ stem, file ≠ stampFile stem) → file ≠ "mod.rs".toList → out file = out' file

private theorem Stamped.write (stamped : Stamped tools digest all out ledger) {stem : Name}
    (member : input ∈ all) (compiled : compileOne tools input = .ok code) :
    Stamped tools digest all
      ((out.write (rsFile stem) code).write (stampFile stem) (fingerprint digest input))
      (ledger.record stem input) := by
  intro other prev found
  by_cases same : other = stem
  · subst same
    rw [OutDir.write_same] at found
    cases found
    refine ⟨input, code, if_pos rfl, member, rfl, compiled, fun _ => ?_⟩
    rw [OutDir.write_other (rsFile_ne_stampFile _ _), OutDir.write_same]
  · have apart : stampFile other ≠ stampFile stem := fun equal => same (stampFile_inj equal)
    rw [OutDir.write_other apart, OutDir.write_other (rsFile_ne_stampFile _ _).symm] at found
    obtain ⟨last, code', known, before, stamp, compiled', there⟩ := stamped other prev found
    refine ⟨last, code', (if_neg same).trans known, before, stamp, compiled', fun proper => ?_⟩
    have apart : rsFile other ≠ rsFile stem := fun equal => same (rsFile_inj equal)
    rw [OutDir.write_other (rsFile_ne_stampFile _ _), OutDir.write_other apart]
    exact there proper

/-- A skipped input has the code that its module holds. -/
private theorem Stamped.skipped (stamped : Stamped tools digest all out ledger)
    (apart : CollisionFree digest all) (member : input ∈ all) {stem : Name}
    (skips : upToDate out stem (fingerprint digest input) = true) :
    ∃ last code, ledger stem = some last ∧ last ∈ all ∧ last.SameBytes input ∧
      compileOne tools last = .ok code ∧
      (stem ≠ "mod".toList → out (rsFile stem) = some code) := by
  unfold upToDate at skips
  split at skips
  · rename_i prev found
    obtain ⟨last, code, known, before, rfl, compiled, there⟩ := stamped stem prev found
    simp only [Bool.and_eq_true, decide_eq_true_eq] at skips
    have digits := skips.1
    unfold fingerprint at digits
    rw [trim_digits] at digits
    have bytes := apart last before input member (UInt64.toNat_inj.mp (toDigits_inj digits))
    exact ⟨last, code, known, before, fed_eq_iff.mp bytes, compiled, there⟩
  · cases skips

private theorem SameModules.write (same : SameModules out out') (file : Name)
    (text : List Char) : SameModules (out.write file text) (out'.write file text) := by
  intro other proper visible
  unfold OutDir.write
  split
  · rfl
  · exact same other proper visible

private theorem SameModules.write_stamp (same : SameModules out out') (stem : Name)
    (text : List Char) : SameModules out (out'.write (stampFile stem) text) := by
  intro other proper visible
  rw [OutDir.write_other (proper stem)]
  exact same other proper visible

private theorem Stamped.write_index (stamped : Stamped tools digest all out ledger)
    (text : List Char) : Stamped tools digest all (out.write "mod.rs".toList text) ledger := by
  intro stem prev found
  have stamp : stampFile stem ≠ "mod.rs".toList :=
    mod_eq_rsFile ▸ (rsFile_ne_stampFile _ _).symm
  rw [OutDir.write_other stamp] at found
  obtain ⟨last, code, known, before, same, compiled, there⟩ := stamped stem prev found
  refine ⟨last, code, known, before, same, compiled, fun visible => ?_⟩
  have other : rsFile stem ≠ "mod.rs".toList := fun equal =>
    visible (rsFile_inj (equal.trans mod_eq_rsFile))
  rw [OutDir.write_other other]
  exact there visible

/-- A stamp is also that of any input with the same bytes. -/
private theorem Stamped.record (stamped : Stamped tools digest all out ledger) {stem : Name}
    (member : input ∈ all) (known : ledger stem = some other) (bytes : other.SameBytes input)
    (compiled : compileOne tools input = .ok code)
    (there : stem ≠ "mod".toList → out (rsFile stem) = some code) :
    Stamped tools digest all out (ledger.record stem input) := by
  intro target prev found
  by_cases same : target = stem
  · subst same
    obtain ⟨last, _, recorded, _, rfl, _, _⟩ := stamped target prev found
    rw [known] at recorded
    cases recorded
    refine ⟨input, code, if_pos rfl, member, ?_, compiled, there⟩
    rw [fingerprint, fingerprint, fed_eq_iff.mpr bytes]
  · obtain ⟨last, code', recorded, rest⟩ := stamped target prev found
    exact ⟨last, code', (if_neg same).trans recorded, rest⟩

/-- Two runs over the same files, whose output directories may differ in stamps, and in the
index while it is still to be written. -/
structure Alike (run clean : Outcome BuildError (List Name) × OutDir) : Prop where
  result : run.1 = clean.1
  modules : SameModules run.2 clean.2
  index : run.2 "mod.rs".toList = clean.2 "mod.rs".toList ∨ ∃ modules, run.1 = .ok modules

/-- One file after another, skipping it leaves what compiling it would. -/
private theorem compileFiles_clean (apart : CollisionFree digest all)
    (within : ∀ input ∈ inputs, input ∈ all) (stamped : Stamped tools digest all out ledger)
    (faithful : Faithful tools ledger inputs) (same : SameModules out out')
    (index : out "mod.rs".toList = out' "mod.rs".toList ∨
      ∀ other ∈ inputs, other.Compiles tools) (modules : List Name) :
    Stamped tools digest all (compileFiles tools digest inputs modules out).2
        (recorded tools ledger inputs) ∧
      Alike (compileFiles tools digest inputs modules out)
        (compileFiles tools digest (inputs.map Input.clean) modules out') := by
  induction inputs generalizing ledger out out' modules with
  | nil => exact ⟨stamped, rfl, same, .inr ⟨modules, rfl⟩⟩
  | cons input rest ih =>
    have member := within input List.mem_cons_self
    have within := fun other inside => within other (List.mem_cons_of_mem input inside)
    have unbroken : out "mod.rs".toList = out' "mod.rs".toList ∨
        input.Compiles tools ∧ ∀ other ∈ rest, other.Compiles tools := by
      rcases index with equal | compiles
      · exact .inl equal
      · exact .inr ⟨compiles input List.mem_cons_self,
          fun other inside => compiles other (List.mem_cons_of_mem _ inside)⟩
    rw [List.map_cons]
    unfold compileFiles recorded
    simp only [show input.clean.path = input.path from rfl, compileOne_clean,
      show input.clean.config.incremental = false from rfl, Bool.false_and]
    cases named : moduleName input.path with
    | none =>
      refine ⟨stamped, rfl, same, ?_⟩
      rcases unbroken with equal | ⟨⟨found, _⟩, _⟩
      · exact .inl equal
      · rw [named] at found
        cases found
    | some stem =>
      obtain ⟨agrees, later⟩ := faithful stem named
      by_cases skips : (input.config.incremental &&
          upToDate out stem (fingerprint digest input)) = true
      · obtain ⟨flag, current⟩ := Bool.and_eq_true_iff.mp skips
        obtain ⟨last, code, known, before, bytes, built, there⟩ :=
          stamped.skipped apart member current
        obtain ⟨closures, settled⟩ := agrees last flag known bytes
        have compiled := compileOne_transfer bytes closures built
        simp only [if_pos skips, compiled, Bool.false_eq_true, if_false]
        refine ih within (stamped.record member known bytes compiled there)
          (later ⟨by rw [named]; rfl, code, compiled⟩) ?_ ?_ _
        · refine SameModules.write_stamp ?_ stem _
          intro file proper visible
          by_cases own : file = rsFile stem
          · subst own
            rw [OutDir.write_same]
            refine there fun hidden => visible ?_
            rw [hidden]
            rfl
          · rw [OutDir.write_other own]
            exact same file proper visible
        · by_cases hidden : stem = "mod".toList
          · exact .inr (settled hidden)
          · have other : "mod.rs".toList ≠ rsFile stem := fun equal =>
              hidden (rsFile_inj (mod_eq_rsFile.symm.trans equal)).symm
            rw [OutDir.write_other (mod_eq_rsFile ▸ rsFile_ne_stampFile _ _),
              OutDir.write_other other]
            exact unbroken.imp_right And.right
      · simp only [if_neg skips, Bool.false_eq_true, if_false]
        cases compiled : compileOne tools input with
        | ok code =>
          refine ih within (stamped.write member compiled)
            (later ⟨by rw [named]; rfl, code, compiled⟩) ?_ ?_ _
          · refine SameModules.write_stamp ?_ stem _
            intro file proper visible
            rw [OutDir.write_other (proper stem)]
            exact same.write (rsFile stem) code file proper visible
          · rcases unbroken with equal | ⟨_, compiles⟩
            · refine .inl ?_
              have stamp : "mod.rs".toList ≠ stampFile stem :=
                mod_eq_rsFile ▸ rsFile_ne_stampFile _ _
              rw [OutDir.write_other stamp, OutDir.write_other stamp]
              unfold OutDir.write
              split
              · rfl
              · exact equal
            · exact .inr compiles
        | err | panic | outOfFuel =>
          refine ⟨stamped, rfl, same, .inl ?_⟩
          rcases unbroken with equal | ⟨⟨_, _, success⟩, _⟩
          · exact equal
          · rw [compiled] at success
            cases success

/-- A call leaves what a clean call would, and the stamps in order. -/
private theorem compileProtos_clean (apart : CollisionFree digest all) (build : Invocation)
    (within : ∀ input ∈ build.inputs, input ∈ all)
    (stamped : Stamped tools digest all out ledger)
    (faithful : Faithful tools ledger build.inputs) :
    Stamped tools digest all (build.compileProtos tools digest out).2
        (recorded tools ledger build.inputs) ∧
      (build.compileProtos tools digest out).1 = (build.clean.compileProtos tools digest out).1 ∧
      ∀ file, (∀ stem, file ≠ stampFile stem) →
        (build.compileProtos tools digest out).2 file =
          (build.clean.compileProtos tools digest out).2 file := by
  unfold Invocation.compileProtos
  rw [show build.clean.files = build.files from rfl]
  unfold Invocation.inputs at within faithful ⊢
  cases listed : build.files with
  | err | panic | outOfFuel => exact ⟨stamped, rfl, fun _ _ => rfl⟩
  | ok files =>
    simp only [listed] at within faithful ⊢
    have cleaned : files.map build.clean.input = (files.map build.input).map Input.clean := by
      rw [List.map_map]
      rfl
    rw [cleaned]
    obtain ⟨after, alike⟩ := compileFiles_clean apart within stamped faithful
      (fun _ _ _ => rfl) (.inl rfl) []
    generalize compileFiles tools digest (files.map build.input) [] out = run at after alike
    generalize compileFiles tools digest ((files.map build.input).map Input.clean) [] out = clean
      at alike
    obtain ⟨result, out₁⟩ := run
    obtain ⟨result', out₂⟩ := clean
    obtain ⟨rfl, modules, index⟩ := alike
    cases result with
    | ok names =>
      refine ⟨after.write_index _, rfl, fun file proper => ?_⟩
      dsimp only
      by_cases own : file = "mod.rs".toList
      · subst own
        rw [OutDir.write_same, OutDir.write_same]
      · rw [OutDir.write_other own, OutDir.write_other own]
        exact modules file proper own
    | err | panic | outOfFuel =>
      refine ⟨after, rfl, fun file proper => ?_⟩
      by_cases own : file = "mod.rs".toList
      · rcases index with equal | ⟨_, impossible⟩
        · rw [own]
          exact equal
        · cases impossible
      · exact modules file proper own

private theorem after_stamped (apart : CollisionFree digest all) (builds : List Invocation)
    (within : ∀ input ∈ builds.flatMap Invocation.inputs, input ∈ all)
    (stamped : Stamped tools digest all out ledger)
    (faithful : FaithfulHistory tools ledger builds) :
    ∀ earlier build later, builds = earlier ++ build :: later →
      ∃ ledger, Stamped tools digest all (after tools digest earlier out) ledger ∧
        Faithful tools ledger build.inputs := by
  induction builds generalizing out ledger with
  | nil =>
    intro earlier build later split
    simp at split
  | cons first more ih =>
    obtain ⟨here, there⟩ := faithful
    rw [List.flatMap_cons] at within
    intro earlier build later split
    cases earlier with
    | nil =>
      cases split
      exact ⟨ledger, stamped, here⟩
    | cons head rest =>
      cases split
      have moved := compileProtos_clean apart first
        (fun input inside => within input (List.mem_append_left _ inside)) stamped here
      exact ih (fun input inside => within input (List.mem_append_right _ inside)) moved.1 there
        rest build later rfl

end Equivalence

/-- In a history whose skipped inputs resolve to what their modules were built from, each build
fails or succeeds as a clean build of the same files would, and leaves the same files. -/
theorem incremental_clean {Parsed : Type} (tools : Toolchain Parsed)
    (digest : List UInt8 → UInt64) (builds : List Invocation) (out : OutDir)
    (fresh : ∀ stem, out (stampFile stem) = none)
    (apart : CollisionFree digest (builds.flatMap Invocation.inputs))
    (faithful : FaithfulHistory tools (fun _ => none) builds)
    (earlier later : List Invocation) (build : Invocation)
    (split : builds = earlier ++ build :: later) :
    let now := after tools digest earlier out
    (build.compileProtos tools digest now).1 = (build.clean.compileProtos tools digest now).1 ∧
      ∀ file, (∀ stem, file ≠ stampFile stem) →
        (build.compileProtos tools digest now).2 file =
          (build.clean.compileProtos tools digest now).2 file := by
  have stamped : Stamped tools digest (builds.flatMap Invocation.inputs) out fun _ => none := by
    intro stem prev found
    rw [fresh stem] at found
    cases found
  obtain ⟨ledger, stamped, agrees⟩ :=
    after_stamped apart builds (fun _ inside => inside) stamped faithful earlier build later split
  have inside : ∀ input ∈ build.inputs, input ∈ builds.flatMap Invocation.inputs := by
    intro input member
    rw [split]
    exact List.mem_flatMap.mpr ⟨build, by simp, member⟩
  exact (compileProtos_clean apart build inside stamped agrees).2

/-- The paths between `import "` and the next quotation mark. -/
def importsOf : List Char → List (List Char)
  | 'i' :: 'm' :: 'p' :: 'o' :: 'r' :: 't' :: ' ' :: '"' :: rest =>
    rest.takeWhile (· ≠ '"') :: importsOf rest
  | _ :: rest => importsOf rest
  | [] => []

/-- A compiler whose code lists the files that it is given. -/
def listingTools : Toolchain (List Char) where
  parseFile name src := name ++ ' ' :: src.toList
  imports := importsOf
  hasErrors _ := false
  generate files _ _ := .ok files.flatten

def samplePath : Path := ["proto".toList, "a.proto".toList]

/-- `a.proto`, which imports `dep.proto`, beside a file of the given name and text. -/
def sampleBuild (dep text : String) : Invocation where
  disk := .dir [("proto".toList, .dir
    [("a.proto".toList, .file (Slice.ofBytes (asBytes "import \"dep.proto\";"))),
      (dep.toList, .file (Slice.ofBytes (asBytes text)))])]
  protos := [samplePath]
  includes := [["proto".toList]]
  config := { incremental := true }

/-- A digest that tells apart inputs of different lengths. -/
def lengthDigest (bytes : List UInt8) : UInt64 := UInt64.ofNat bytes.length

/-- The first build, twice, and the dependency with another text. -/
def unedited : Invocation := sampleBuild "dep.proto" ""

def edited : Invocation := sampleBuild "dep.proto" "message M {}"

theorem incremental_clean_edited :
    let now := after listingTools lengthDigest [unedited, unedited] fun _ => none
    (edited.compileProtos listingTools lengthDigest now).1 =
        (edited.clean.compileProtos listingTools lengthDigest now).1 ∧
      ∀ file, (∀ stem, file ≠ stampFile stem) →
        (edited.compileProtos listingTools lengthDigest now).2 file =
          (edited.clean.compileProtos listingTools lengthDigest now).2 file := by
  refine incremental_clean listingTools lengthDigest [unedited, unedited, edited] (fun _ => none)
    (fun _ => rfl) (by unfold CollisionFree; decide +kernel) ?_ [unedited, unedited] [] edited rfl
  have compiled : compileOne listingTools (unedited.input samplePath) =
      .ok "dep.proto a.proto import \"dep.proto\";".toList := by decide +kernel
  have changed : (unedited.input samplePath).contents ≠ (edited.input samplePath).contents := by
    decide +kernel
  have named : moduleName (unedited.input samplePath).path = some "a".toList := rfl
  have kept (ledger : Ledger) : recorded listingTools ledger [unedited.input samplePath] =
      ledger.record "a".toList (unedited.input samplePath) := by
    unfold recorded
    rw [named, compiled]
    rfl
  have start : Faithful listingTools (fun _ => none) [unedited.input samplePath] := by
    rintro stem _
    exact ⟨nofun, fun _ => trivial⟩
  have again (ledger : Ledger) (known : ledger "a".toList = some (unedited.input samplePath)) :
      Faithful listingTools ledger [unedited.input samplePath] := by
    intro stem same
    cases same
    refine ⟨fun last _ found _ => ?_, fun _ => trivial⟩
    cases known.symm.trans found
    exact ⟨rfl, nofun⟩
  have final (ledger : Ledger) (known : ledger "a".toList = some (unedited.input samplePath)) :
      Faithful listingTools ledger [edited.input samplePath] := by
    intro stem same
    cases same
    refine ⟨fun last _ found bytes => ?_, fun _ => trivial⟩
    cases known.symm.trans found
    exact (changed bytes.1).elim
  have inputs (dep text : String) : (sampleBuild dep text).inputs =
      [(sampleBuild dep text).input samplePath] := rfl
  refine ⟨start, ?_, ?_, trivial⟩
  · rw [unedited, inputs, ← unedited, kept]
    exact again _ (if_pos rfl)
  · rw [unedited, inputs, ← unedited, kept, kept]
    exact final _ (if_pos rfl)

/-- A dependency that is moved away goes unnoticed: the module is skipped, and a clean build
fails. -/
theorem not_incremental_clean :
    let first := sampleBuild "dep.proto" ""
    let second := sampleBuild "moved.proto" ""
    let now := after listingTools lengthDigest [first] fun _ => none
    CollisionFree lengthDigest ([first, second].flatMap Invocation.inputs) ∧
      (second.compileProtos listingTools lengthDigest now).1 = .ok () ∧
      (second.clean.compileProtos listingTools lengthDigest now).1 =
        .err (.resolving samplePath
          (.importNotFound "dep.proto".toList [["proto".toList]])) := by
  refine ⟨?_, ?_, ?_⟩
  · unfold CollisionFree
    decide +kernel
  · decide +kernel
  · decide +kernel

end TptProto.Build
