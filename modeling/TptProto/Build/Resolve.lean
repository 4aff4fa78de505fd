import TptProto.Core.Bytes
import TptProto.Foundation.Outcome

/-! Files and directories, the paths that lead to them, and the `.proto` files below a
directory. -/

namespace TptProto.Build

open TptProto.Core

/-- One component of a path. -/
abbrev Name := List Char

/-- The components of a path, as `/` separates them. The first one starts at the root. -/
abbrev Path := List Name

/-- A file, or a directory with its entries in the order in which they are listed. -/
inductive Node where
  | file (contents : Slice)
  | dir (entries : List (Name × Node))

namespace Node

variable (disk : Node)

def child (name : Name) : Node → Option Node
  | file _ => none
  | dir entries => entries.lookup name

/-- The node at a location, which has no `.` and no `..` in it. -/
def get : Node → Path → Option Node
  | node, [] => some node
  | node, name :: rest => (node.child name).bind fun inner => get inner rest

/-- Follow the components of a path from a location. -/
def walk : Path → Path → Option Path
  | here, [] => some here
  | here, name :: rest =>
    match disk.get here with
    | some (dir _) =>
      if name = [] ∨ name = ['.'] then walk here rest
      else if name = ['.', '.'] then walk here.dropLast rest
      else if (disk.get (here ++ [name])).isSome then walk (here ++ [name]) rest
      else none
    | _ => none

/-- `std::fs::canonicalize`. -/
def canonicalize (path : Path) : Option Path := walk disk [] path

def find (path : Path) : Option Node := (disk.canonicalize path).bind disk.get

def isFile (path : Path) : Bool :=
  match disk.find path with
  | some (file _) => true
  | _ => false

/-- `std::fs::read`. -/
def read (path : Path) : Option Slice :=
  match disk.find path with
  | some (file contents) => some contents
  | _ => none

/-- `std::fs::read_to_string`. -/
def readToString (path : Path) : Option String := (disk.read path).bind (fromUtf8 ·.bytes)

end Node

/-- `Path::file_name`. -/
def fileName (path : Path) : Option Name :=
  match (path.filter fun name => name ≠ [] ∧ name ≠ ['.']).getLast? with
  | some name => if name = ['.', '.'] then none else some name
  | none => none

/-- What stands before and after the last dot of a file name. -/
def rsplitFileAtDot (name : Name) : Option Name × Option Name :=
  match name.reverse.span (· ≠ '.') with
  | (_, []) => (none, some name)
  | (_, [_]) => (some name, none)
  | (after, _ :: before) => (some before.reverse, some after.reverse)

/-- `Path::file_stem`. -/
def fileStem (path : Path) : Option Name := do
  let (before, after) := rsplitFileAtDot (← fileName path)
  before.or after

/-- `Path::extension`. -/
def extension (path : Path) : Option Name := do
  let (before, after) := rsplitFileAtDot (← fileName path)
  before.bind fun _ => after

/-- `Path::join` with a relative or an absolute path. -/
def join (base : Path) (path : Path) : Path :=
  match path with
  | [] :: _ :: _ => path
  | _ => base ++ path

/-- The components of a path that is written with separators. -/
def components : List Char → Path
  | [] => [[]]
  | c :: rest =>
    if c = '/' then [] :: components rest
    else match components rest with
      | [] => [[c]]
      | first :: more => (c :: first) :: more

mutual

/-- The `.proto` files at or below a node. -/
def protosAt (path : Path) : Node → List Path
  | .file _ => if extension path = some "proto".toList then [path] else []
  | .dir entries => protosIn path entries

def protosIn (path : Path) : List (Name × Node) → List Path
  | [] => []
  | (name, node) :: rest => protosAt (path ++ [name]) node ++ protosIn path rest

end

/-- `collect_protos`, which fails where there is nothing at the root. -/
def collectProtos (disk : Node) (root : Path) : Option (List Path) :=
  (disk.find root).map (protosAt root)

end TptProto.Build

/-! The files that an entry file resolves to: itself and what it imports, dependencies first. -/

namespace TptProto.Build

open TptProto.Core TptProto.Foundation

/-- The parser and the compiler that a build calls, of which it reads the imports of a parsed
file, whether the parsed files have an error among their diagnostics, and the generated code. -/
structure Toolchain (Parsed : Type) where
  parseFile : (name : List Char) → (src : String) → Parsed
  imports : Parsed → List (List Char)
  hasErrors : List Parsed → Bool
  generate : List Parsed → (grpc modulePerPackage : Bool) →
    Except (List Char) (List Char)

structure ResolvedFile (Parsed : Type) where
  name : List Char
  sourcePath : Path
  parsed : Parsed

inductive IoError where
  /-- `reading {path}` -/
  | reading (path : Path)
  /-- `import "{import}" not found in any include directory` -/
  | importNotFound (path : List Char) (includes : List Path)
  deriving DecidableEq

/-- Components with a separator between two of them. -/
def withSeparators : Path → List Char
  | [] => []
  | [name] => name
  | name :: rest => name ++ '/' :: withSeparators rest

/-- The part of a location below an include directory. -/
def below (disk : Node) (canon inc : Path) : Option Path := do
  let canonInc ← disk.canonicalize inc
  if canonInc.isPrefixOf canon then some (canon.drop canonInc.length) else none

def logicalName (disk : Node) (path : Path) (includes : List Path) : List Char :=
  match (disk.canonicalize path).bind fun canon => includes.findSome? (below disk canon) with
  | some rel => (withSeparators rel).map fun c => if c = '\\' then '/' else c
  | none => (fileName path).getD "input.proto".toList

def findImported (disk : Node) (path : List Char) (includes : List Path) :
    Outcome IoError Path :=
  match (includes.map fun inc => join inc (components path)).find? disk.isFile with
  | some candidate => .ok candidate
  | none => .err (.importNotFound path includes)

/-- The logical names met so far and the files finished so far. -/
structure Ctx (Parsed : Type) where
  seen : List (List Char) := []
  out : List (ResolvedFile Parsed) := []

variable {Parsed : Type} (tools : Toolchain Parsed) (disk : Node) (includes : List Path)

/-- Names are compared character by character. -/
instance lawfulName : LawfulBEq (List Char) := inferInstance

/-- Visit a file, with a bound on the depth of imports. -/
def visit : Nat → Path → Ctx Parsed → Outcome IoError (Ctx Parsed)
  | fuel, path, ctx =>
    let name := logicalName disk path includes
    if name ∈ ctx.seen then .ok ctx
    else match disk.readToString path with
      | none => .err (.reading path)
      | some src => match fuel with
        | 0 => .outOfFuel
        | fuel + 1 => do
          let parsed := tools.parseFile name src
          let ctx ← (tools.imports parsed).foldlM (fun ctx path => do
            let dep ← findImported disk path includes
            visit fuel dep ctx) { ctx with seen := name :: ctx.seen }
          .ok { ctx with out := ctx.out ++ [⟨name, path, parsed⟩] }

mutual

/-- The locations of the files at or below a node. -/
def filesAt (here : Path) : Node → List Path
  | .file _ => [here]
  | .dir entries => filesIn here entries

def filesIn (here : Path) : List (Name × Node) → List Path
  | [] => []
  | (name, node) :: rest => filesAt (here ++ [name]) node ++ filesIn here rest

end

/-- `resolve_and_parse`. No chain of imports is longer than the number of files. -/
def resolveAndParse (entry : Path) : Outcome IoError (List (ResolvedFile Parsed)) := do
  let ctx ← visit tools disk includes (filesAt [] disk).length entry {}
  .ok ctx.out

section Totality

variable {disk : Node} {here path canon : Path} {contents : Slice}

private theorem get_append (node : Node) (first second : Path) :
    node.get (first ++ second) = (node.get first).bind fun inner => inner.get second := by
  induction first generalizing node with
  | nil => rfl
  | cons name rest ih =>
    simp only [List.cons_append, Node.get, Option.bind_assoc]
    cases node.child name with
    | none => rfl
    | some inner => exact ih inner

/-- What holds a location inside it is a directory. -/
private theorem get_dropLast {entries : List (Name × Node)}
    (directory : disk.get here = some (.dir entries)) :
    ∃ entries, disk.get here.dropLast = some (.dir entries) := by
  rcases List.eq_nil_or_concat here with rfl | ⟨outer, name, rfl⟩
  · exact ⟨entries, directory⟩
  · rw [List.concat_eq_append, get_append] at directory
    rw [List.concat_eq_append, List.dropLast_concat]
    obtain ⟨inner, found, held⟩ := Option.bind_eq_some_iff.mp directory
    cases inner with
    | file contents => cases held
    | dir entries => exact ⟨entries, found⟩

private theorem fileName_cons {name : Name} (named : fileName path = some name) (first : Name) :
    fileName (first :: path) = some name := by
  unfold fileName at named ⊢
  cases kept : path.filter fun name => name ≠ [] ∧ name ≠ ['.'] with
  | nil =>
    rw [kept] at named
    cases named
  | cons second rest =>
    rw [kept] at named
    by_cases proper : first ≠ [] ∧ first ≠ ['.']
    · rw [List.filter_cons_of_pos (by simpa using proper), kept, List.getLast?_cons_cons]
      exact named
    · rw [List.filter_cons_of_neg (by simpa using proper), kept]
      exact named

/-- A path that leads to a file ends in the file's own name. -/
private theorem walk_file (walked : disk.walk here path = some canon)
    (file : disk.get canon = some (.file contents)) :
    (path = [] ∧ canon = here) ∨
      ∃ name, fileName path = some name ∧ canon.getLast? = some name := by
  induction path generalizing here with
  | nil =>
    cases walked
    exact .inl ⟨rfl, rfl⟩
  | cons name rest ih =>
    unfold Node.walk at walked
    split at walked
    · rename_i entries directory
      split at walked
      · rcases ih walked with ⟨_, rfl⟩ | ⟨last, named, same⟩
        · rw [directory] at file
          cases file
        · exact .inr ⟨last, fileName_cons named name, same⟩
      · rename_i proper
        split at walked
        · rcases ih walked with ⟨_, rfl⟩ | ⟨last, named, same⟩
          · obtain ⟨entries, outer⟩ := get_dropLast directory
            rw [outer] at file
            cases file
          · exact .inr ⟨last, fileName_cons named name, same⟩
        · rename_i descends
          split at walked
          · rcases ih walked with ⟨rfl, rfl⟩ | ⟨last, named, same⟩
            · refine .inr ⟨name, ?_, List.getLast?_concat⟩
              unfold fileName
              rw [List.filter_cons_of_pos (by simpa using proper)]
              exact if_neg descends
            · exact .inr ⟨last, fileName_cons named name, same⟩
          · cases walked
    · cases walked

mutual

private theorem mem_filesAt (node : Node) (here path : Path)
    (found : node.get path = some (.file contents)) : here ++ path ∈ filesAt here node := by
  match node, path with
  | .file _, [] => simp [filesAt]
  | .file _, _ :: _ => cases found
  | .dir _, [] => cases found
  | .dir entries, name :: rest =>
    obtain ⟨inner, listed, found⟩ := Option.bind_eq_some_iff.mp found
    exact mem_filesIn entries here listed found

private theorem mem_filesIn (entries : List (Name × Node)) (here : Path) {name : Name}
    {inner : Node} {rest : Path} (listed : entries.lookup name = some inner)
    (found : inner.get rest = some (.file contents)) :
    here ++ name :: rest ∈ filesIn here entries := by
  match entries with
  | [] => cases listed
  | (other, node) :: more =>
    rw [List.lookup_cons] at listed
    unfold filesIn
    split at listed
    · rename_i same
      cases listed
      cases eq_of_beq same
      have member := mem_filesAt inner (here ++ [name]) rest found
      rw [List.append_assoc] at member
      exact List.mem_append_left _ member
    · exact List.mem_append_right _ (mem_filesIn more here listed found)

end

/-- The logical name of the file at a location. -/
private def nameAt (disk : Node) (includes : List Path) (canon : Path) : List Char :=
  match includes.findSome? (below disk canon) with
  | some rel => (withSeparators rel).map fun c => if c = '\\' then '/' else c
  | none => canon.getLast?.getD "input.proto".toList

private theorem logicalName_read {includes : List Path} {src : String}
    (readable : disk.readToString path = some src) :
    ∃ canon ∈ filesAt [] disk, disk.canonicalize path = some canon ∧
      logicalName disk path includes = nameAt disk includes canon := by
  obtain ⟨contents, read, _⟩ := Option.bind_eq_some_iff.mp readable
  unfold Node.read at read
  split at read
  · rename_i file found
    obtain ⟨canon, walked, file⟩ := Option.bind_eq_some_iff.mp found
    refine ⟨canon, mem_filesAt disk [] canon file, walked, ?_⟩
    unfold logicalName nameAt
    rw [walked, Option.bind_some]
    rcases walk_file walked file with ⟨rfl, rfl⟩ | ⟨name, named, last⟩
    · rfl
    · rw [named, last]
  · cases read

/-- Two paths to one file give it one text and one logical name. -/
theorem read_congr {includes : List Path} {other : Path} {src : String}
    (same : disk.canonicalize path = disk.canonicalize other)
    (readable : disk.readToString path = some src) :
    disk.readToString other = some src ∧
      logicalName disk path includes = logicalName disk other includes := by
  have also : disk.readToString other = some src := by
    rw [← readable]
    unfold Node.readToString Node.read Node.find
    rw [same]
  obtain ⟨canon, _, located, named⟩ := @logicalName_read _ _ includes _ readable
  obtain ⟨canon', _, located', named'⟩ := @logicalName_read _ _ includes _ also
  have here : canon = canon' := Option.some.inj (located.symm.trans (same.trans located'))
  exact ⟨also, by rw [named, named', here]⟩

/-- The logical names of files that have not been met. -/
private def unseen (disk : Node) (includes : List Path) (seen : List (List Char)) :
    List (List Char) :=
  ((filesAt [] disk).map (nameAt disk includes)).filter fun name => name ∉ seen

private theorem unseen_anti {includes : List Path} {seen seen' : List (List Char)}
    (grown : ∀ name ∈ seen, name ∈ seen') :
    (unseen disk includes seen').length ≤ (unseen disk includes seen).length := by
  simp only [unseen, ← List.countP_eq_length_filter]
  refine List.countP_mono_left fun name _ missing => ?_
  simp only [decide_eq_true_eq] at missing ⊢
  exact fun met => missing (grown name met)

private theorem unseen_cons {includes : List Path} {seen : List (List Char)} {name : List Char}
    (member : name ∈ unseen disk includes seen) :
    (unseen disk includes (name :: seen)).length < (unseen disk includes seen).length := by
  have removed : unseen disk includes (name :: seen) =
      (unseen disk includes seen).filter fun other => other ≠ name := by
    simp only [unseen, List.filter_filter]
    congr 1
    funext other
    simp [List.mem_cons, not_or]
  rw [removed, List.length_filter_lt_length_iff_exists]
  exact ⟨name, member, by simp⟩

private theorem logicalName_unseen {includes : List Path} {seen : List (List Char)}
    {src : String} (readable : disk.readToString path = some src)
    (fresh : logicalName disk path includes ∉ seen) :
    logicalName disk path includes ∈ unseen disk includes seen := by
  obtain ⟨canon, member, _, same⟩ := @logicalName_read _ _ includes _ readable
  exact List.mem_filter.mpr ⟨List.mem_map.mpr ⟨canon, member, same.symm⟩, by simpa using fresh⟩

/-- A visit that goes deeper has met a file for the first time. -/
private theorem visit_finishes (fuel : Nat) (path : Path) (ctx : Ctx Parsed)
    (enough : (unseen disk includes ctx.seen).length ≤ fuel) :
    visit tools disk includes fuel path ctx ≠ .outOfFuel ∧
      ∀ next, visit tools disk includes fuel path ctx = .ok next →
        ∀ name ∈ ctx.seen, name ∈ next.seen := by
  induction fuel generalizing path ctx with
  | zero =>
    unfold visit
    by_cases met : logicalName disk path includes ∈ ctx.seen
    · rw [if_pos met]
      exact ⟨nofun, fun next same => by cases same; exact fun _ member => member⟩
    · rw [if_neg met]
      cases readable : disk.readToString path with
      | none => exact ⟨nofun, nofun⟩
      | some src =>
        have positive := List.length_pos_of_mem (logicalName_unseen readable met)
        omega
  | succ fuel ih =>
    unfold visit
    by_cases met : logicalName disk path includes ∈ ctx.seen
    · rw [if_pos met]
      exact ⟨nofun, fun next same => by cases same; exact fun _ member => member⟩
    · rw [if_neg met]
      cases readable : disk.readToString path with
      | none => exact ⟨nofun, nofun⟩
      | some src =>
        have less := unseen_cons (logicalName_unseen readable met)
        obtain ⟨finished, kept⟩ := @Outcome.foldlM_keeps _ _ _
          (fun (ctx : Ctx Parsed) path => do
            let dep ← findImported disk path includes
            visit tools disk includes fuel dep ctx)
          (fun state => ∀ name ∈ logicalName disk path includes :: ctx.seen, name ∈ state.seen)
          (tools.imports (tools.parseFile (logicalName disk path includes) src))
          (by
            intro state imported _ held
            cases located : findImported disk imported includes with
            | ok dep =>
              have fewer := @unseen_anti disk includes _ _ held
              obtain ⟨finished, kept⟩ := ih dep state (by omega)
              exact ⟨finished, fun next moved name member => kept next moved _ (held name member)⟩
            | err error => exact ⟨nofun, nofun⟩
            | panic => exact ⟨nofun, nofun⟩
            | outOfFuel =>
              unfold findImported at located
              split at located <;> cases located)
          { ctx with seen := logicalName disk path includes :: ctx.seen }
          (fun _ member => member)
        constructor
        · intro exhausted
          rcases Outcome.bind_eq_outOfFuel.mp exhausted with early | ⟨_, _, impossible⟩
          · exact finished early
          · cases impossible
        · intro next moved name member
          obtain ⟨inner, folded, done⟩ := Outcome.bind_eq_ok.mp moved
          cases done
          exact kept inner folded name (List.mem_cons_of_mem _ member)

/-- Resolution always ends. -/
theorem resolveAndParse_ne_outOfFuel (disk : Node) (includes : List Path) (entry : Path) :
    resolveAndParse tools disk includes entry ≠ .outOfFuel := by
  have enough : (unseen disk includes ({} : Ctx Parsed).seen).length ≤ (filesAt [] disk).length :=
    Nat.le_trans (List.length_filter_le _ _) (Nat.le_of_eq (List.length_map _))
  intro exhausted
  rcases Outcome.bind_eq_outOfFuel.mp exhausted with early | ⟨_, _, impossible⟩
  · exact (visit_finishes tools includes _ entry {} enough).1 early
  · cases impossible

end Totality

end TptProto.Build
