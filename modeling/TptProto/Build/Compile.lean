import TptProto.Build.Resolve
import TptProto.Core.WireType
import TptProto.Foundation.Trim

/-! `compile_protos`, with the fingerprints by which an incremental build skips files. -/

namespace TptProto.Build

open TptProto.Core TptProto.Foundation

structure BuildConfig where
  grpc : Bool := false
  modulePerPackage : Bool := false
  incremental : Bool := false
  deriving DecidableEq

/-- The bytes that a configuration feeds to a hasher. -/
def BuildConfig.fed (config : BuildConfig) : List UInt8 :=
  [config.grpc, config.modulePerPackage, config.incremental].map fun flag => if flag then 1 else 0

/-- The bytes that the contents of a file feed to a hasher, their length first. -/
def chunk (contents : Slice) : List UInt8 :=
  writeFixed64 (UInt64.ofNat contents.length) ++ contents.bytes

/-- What one file is compiled from. -/
structure Input where
  disk : Node
  path : Path
  includes : List Path
  config : BuildConfig

namespace Input

variable (input : Input)

/-- The file's own contents, then those of every `.proto` file below the include directories in
the order of their listing. -/
def contents : List Slice :=
  (input.disk.read input.path).toList ++ input.includes.flatMap fun inc =>
    ((collectProtos input.disk inc).getD []).map fun dep =>
      (input.disk.read dep).getD Slice.empty

/-- The bytes that `fingerprint` feeds to its hasher. -/
def fed : List UInt8 := input.contents.flatMap chunk ++ input.config.fed

end Input

/-- `fingerprint`, as its decimal digits. -/
def fingerprint (digest : List UInt8 → UInt64) (input : Input) : List Char :=
  Nat.toDigits 10 (digest input.fed).toNat

inductive BuildError where
  /-- `reading dir {root}` -/
  | readingDir (root : Path)
  /-- `invalid proto file name` -/
  | invalidFileName
  /-- `resolving imports of {path}` -/
  | resolving (path : Path) (error : IoError)
  /-- `compilation of {path} failed` -/
  | compilation (path : Path)
  /-- `codegen error in {path}` -/
  | codegen (path : Path) (message : List Char)
  deriving DecidableEq

variable {Parsed : Type} (tools : Toolchain Parsed) (digest : List UInt8 → UInt64)

def compileOne (input : Input) : Outcome BuildError (List Char) := do
  let resolved ← (resolveAndParse tools input.disk input.includes input.path).mapErr
    (.resolving input.path)
  let parsed := resolved.map (·.parsed)
  if tools.hasErrors parsed then .err (.compilation input.path)
  else match tools.generate parsed input.config.grpc input.config.modulePerPackage with
    | .ok code => .ok code
    | .error message => .err (.codegen input.path message)

/-- The module that a file generates: its stem with `_` for `-` and `.`. -/
def moduleName (path : Path) : Option Name :=
  (fileStem path).map fun stem => stem.map fun c => if c = '-' ∨ c = '.' then '_' else c

/-- The files of the output directory. -/
abbrev OutDir := Name → Option (List Char)

def OutDir.write (out : OutDir) (file : Name) (text : List Char) : OutDir :=
  fun other => if other = file then some text else out other

def rsFile (stem : Name) : Name := stem ++ ".rs".toList

def stampFile (stem : Name) : Name := stem ++ ".tptstamp".toList

/-- The stamp of a module is that of its inputs, and the module is there. -/
def upToDate (out : OutDir) (stem : Name) (fp : List Char) : Bool :=
  match out (stampFile stem) with
  | some prev => trim prev = fp && (out (rsFile stem)).isSome
  | none => false

/-- The loop over the files, with the modules so far. -/
def compileFiles : List Input → List Name → OutDir → Outcome BuildError (List Name) × OutDir
  | [], modules, out => (.ok modules, out)
  | input :: rest, modules, out =>
    match moduleName input.path with
    | none => (.err .invalidFileName, out)
    | some stem =>
      let fp := fingerprint digest input
      if input.config.incremental && upToDate out stem fp then
        compileFiles rest (modules ++ [stem]) out
      else match compileOne tools input with
        | .ok code => compileFiles rest (modules ++ [stem])
            ((out.write (rsFile stem) code).write (stampFile stem) fp)
        | .err error => (.err error, out)
        | .panic => (.panic, out)
        | .outOfFuel => (.outOfFuel, out)

/-- The arguments of one call, and the disk that it finds. -/
structure Invocation where
  disk : Node
  protos : List Path
  includes : List Path
  config : BuildConfig

namespace Invocation

variable (build : Invocation)

/-- The inputs with directories expanded. -/
def files : Outcome BuildError (List Path) := do
  let lists ← build.protos.mapM fun p =>
    Outcome.ofOption (.readingDir p) (collectProtos build.disk p)
  .ok lists.flatten

def input (path : Path) : Input := ⟨build.disk, path, build.includes, build.config⟩

/-- The text of `mod.rs`. -/
def index (modules : List Name) : List Char :=
  modules.flatMap fun m => "pub mod ".toList ++ m ++ ";\n".toList

/-- `compile_protos`. -/
def compileProtos (out : OutDir) : Outcome BuildError Unit × OutDir :=
  match build.files with
  | .ok files =>
    match compileFiles tools digest (files.map build.input) [] out with
    | (.ok modules, out) => (.ok (), out.write "mod.rs".toList (index modules))
    | (.err error, out) => (.err error, out)
    | (.panic, out) => (.panic, out)
    | (.outOfFuel, out) => (.outOfFuel, out)
  | .err error => (.err error, out)
  | .panic => (.panic, out)
  | .outOfFuel => (.outOfFuel, out)

end Invocation

end TptProto.Build
