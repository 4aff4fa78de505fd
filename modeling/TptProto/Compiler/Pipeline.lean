import TptProto.Compiler.Convert
import TptProto.Foundation.SortedMap

/-! Compilation of a set of files. Every diagnostic of the pipeline is recorded together
with a lint finding of the same content, so a pass returns findings. No hash map or set is
iterated over, other than to fill another: a map is its insertions, newest first, and a
set a list without repeats. -/

namespace TptProto.Compiler

open TptProto.Foundation TptProto.Core TptProto.Descriptor TptProto.Language

/-- A diagnostic and the file its lint finding names. -/
structure Finding where
  diagnostic : Diagnostic
  file : String
  deriving DecidableEq, Repr

abbrev Findings := List Finding

def Finding.error (code : ErrorCode) (message : String) (span : Option Span) (file : String) :
    Finding := ⟨.error code message span, file⟩

def Finding.warning (code : ErrorCode) (message : String) (span : Option Span) (file : String) :
    Finding := ⟨.warning code message span, file⟩

/-- `map.insert(key, value)`: lookups find the newest entry of a key. -/
def mapInsert {κ α : Type} (entries : List (κ × α)) (key : κ) (value : α) : List (κ × α) :=
  (key, value) :: entries

/-- `set.insert(item)`. -/
def setInsert {α : Type} [DecidableEq α] (set : List α) (item : α) : List α :=
  if item ∈ set then set else set ++ [item]

/-- `set.extend(items)`. -/
def setExtend {α : Type} [DecidableEq α] (set items : List α) : List α := items.foldl setInsert set

abbrev FileIndex := List (String × File)

/-- Index files by name; a later file of a name replaces an earlier one. -/
def indexFiles (files : List File) : FileIndex × Findings :=
  files.foldl (fun state f =>
    (mapInsert state.1 f.name f,
      if SortedMap.contains state.1 f.name then
        state.2 ++ [.error .duplicateSymbol ("duplicate file name '" ++ f.name ++ "'") none f.name]
      else state.2)) ([], [])

/-- A node of the import graph that has been entered; the others have no colour. -/
inductive Color where
  | inProgress
  | done
  deriving DecidableEq, Repr

structure CycleState where
  color : List (String × Color) := []
  findings : Findings := []

def cycleFinding (name : String) : Finding :=
  .error .other ("import cycle detected involving '" ++ name ++ "'") none name

section Graph

variable (byName : FileIndex)

/-- The imports of a file, if it is among those given. -/
def importsIn (name : String) : List Import :=
  match SortedMap.get? byName name with
  | some f => f.imports
  | none => []

/-- `visit_cycle`, with a bound on the recursion. -/
def visitCycle : Nat → String → CycleState → Option CycleState
  | fuel, name, state =>
    match SortedMap.get? state.color name with
    | some .done => some state
    | some .inProgress => some { state with findings := state.findings ++ [cycleFinding name] }
    | none =>
      match fuel with
      | 0 => none
      | fuel + 1 => do
        let entered := { state with color := mapInsert state.color name .inProgress }
        let state ← (importsIn byName name).foldlM (fun state imp =>
          if SortedMap.contains byName imp.path then visitCycle fuel imp.path state
          else some state) entered
        some { state with color := mapInsert state.color name .done }

/-- `detect_import_cycles`. Only the files given are entered, each at most once. -/
def detectImportCycles (files : List File) : Option Findings :=
  (files.foldlM (fun state f => visitCycle byName byName.length f.name state) {}).map
    fun state => state.findings

abbrev Memo := List (String × Option (List String))

/-- `reexported_of`, with a bound on the recursion. A memo entry without a set is in progress. -/
def reexportedOf : Nat → String → Memo → Option (List String × Memo)
  | fuel, name, memo =>
    match SortedMap.get? memo name with
    | some cached => some (cached.getD [], memo)
    | none =>
      match fuel with
      | 0 => none
      | fuel + 1 => do
        let (set, memo) ← (importsIn byName name).foldlM (fun (state : List String × Memo) imp =>
          if imp.kind = .«public» ∧ SortedMap.contains byName imp.path = true then do
            let (inner, memo) ← reexportedOf fuel imp.path state.2
            some (setExtend (setInsert state.1 imp.path) inner, memo)
          else some state) ([], mapInsert memo name none)
        some (set, mapInsert memo name (some set))

/-- The files one file sees: each import that is given, and what it re-exports. -/
def visibleFrom (f : File) (memo : Memo) : Option (List String × Memo) :=
  f.imports.foldlM (fun (state : List String × Memo) imp =>
    if SortedMap.contains byName imp.path then do
      let (inner, memo) ← reexportedOf byName byName.length imp.path state.2
      some (setExtend (setInsert state.1 imp.path) inner, memo)
    else some state) ([], memo)

abbrev Visibility := List (String × List String)

def missingImports (files : List File) : Findings :=
  files.flatMap fun f => f.imports.flatMap fun imp =>
    if SortedMap.contains byName imp.path = false ∧ imp.kind ≠ .weak then
      [.error .other ("cannot find imported file '" ++ imp.path ++ "' (imported by '" ++ f.name ++
        "')") (some imp.span) f.name]
    else []

/-- `compute_visibility` without its report of missing imports. -/
def computeVisibility (files : List File) : Option Visibility :=
  (files.foldlM (fun (state : Visibility × Memo) f => do
    let (vis, memo) ← visibleFrom byName f state.2
    some (mapInsert state.1 f.name vis, memo)) ([], [])).map Prod.fst

end Graph

/-- The symbol table: where each name was first declared, and the names of the file at hand. -/
structure SymbolState where
  symbols : List (String × String) := []
  byFile : List String := []
  findings : Findings := []

/-- A name with its leading dot, below a prefix that may itself have one. -/
def qualify (pathPrefix name : String) : String :=
  let normalized := match pathPrefix.toList with
    | '.' :: rest => String.ofList rest
    | _ => pathPrefix
  if normalized.isEmpty then "." ++ name else "." ++ normalized ++ "." ++ name

def insertSymbol (fileName : String) (state : SymbolState) (fqn : String) : SymbolState :=
  let byFile := setInsert state.byFile fqn
  match SortedMap.get? state.symbols fqn with
  | some prev =>
    if prev ≠ fileName then
      { state with
        byFile
        findings := state.findings ++ [.error .duplicateSymbol
          ("symbol '" ++ fqn ++ "' defined in both '" ++ prev ++ "' and '" ++ fileName ++ "'") none
          fileName] }
    else { state with byFile }
  | none => { state with byFile, symbols := mapInsert state.symbols fqn fileName }

def enumSymbol (pathPrefix : String) (e : EnumDescriptorProto) : String :=
  qualify pathPrefix (e.name.getD "")

mutual

def collectMessage (fileName pathPrefix : String) : DescriptorProto → SymbolState → SymbolState
  | ⟨name, _, _, nestedType, enumType, _, _, _, _, _⟩, state =>
    let fqn := qualify pathPrefix (name.getD "")
    let state := collectMessages fileName fqn nestedType (insertSymbol fileName state fqn)
    enumType.foldl (fun state e => insertSymbol fileName state (enumSymbol fqn e)) state

def collectMessages (fileName pathPrefix : String) :
    List DescriptorProto → SymbolState → SymbolState
  | [], state => state
  | m :: rest, state =>
    collectMessages fileName pathPrefix rest (collectMessage fileName pathPrefix m state)

end

def collectSymbols (fd : FileDescriptorProto) (fileName : String) (state : SymbolState) :
    SymbolState :=
  let pkg := fd.package.getD ""
  fd.enumType.foldl (fun state e => insertSymbol fileName state (enumSymbol pkg e))
    (collectMessages fileName pkg fd.messageType state)

/-- The parts of a name between dots. -/
def splitDots (name : List Char) : List (List Char) :=
  match name with
  | [] => [[]]
  | c :: rest =>
    if c = '.' then [] :: splitDots rest
    else match splitDots rest with
      | [] => [[c]]
      | part :: parts => (c :: part) :: parts

/-- `parts.join(".")` below a leading dot, then the name. -/
def candidate (parts : List (List Char)) (name : String) : String :=
  String.ofList (parts.flatMap (fun part => '.' :: part) ++ '.' :: name.toList)

/-- The prefixes of a list, longest first. -/
def prefixes {α : Type} (parts : List α) : List (List α) :=
  (List.range (parts.length + 1)).reverse.map fun i => parts.take i

/-- The candidates of `resolve_type_name` for a relative name. -/
def candidates (name pkg : String) : List String :=
  let pkg := match pkg.toList with
    | '.' :: rest => rest
    | other => other
  let parts := if pkg.isEmpty then [] else splitDots pkg
  (prefixes parts).map fun parts => candidate parts name

def resolveTypeName (name pkg : String) (visible : List String) : Option String :=
  if name.toList.head? = some '.' then if name ∈ visible then some name else none
  else (candidates name pkg).find? fun candidate => candidate ∈ visible

/-- Types whose name `resolve_field_type` looks up. -/
def isNamedType (t : Option FieldType) : Bool :=
  t = some .message || t = some .enum || t = some .group

def resolveFieldType (pkg : String) (visible : List String) (fileName : String)
    (f : FieldDescriptorProto) : FieldDescriptorProto × Findings :=
  if isNamedType f.type then
    match f.typeName with
    | some tn =>
      match resolveTypeName tn pkg visible with
      | some resolved => ({ f with typeName := some resolved }, [])
      | none =>
        (f, [.error .unknownType
          ("unknown type '" ++ tn ++ "' referenced by field '" ++ f.name.getD "" ++ "'") none fileName])
    | none => (f, [])
  else (f, [])

mutual

/-- `resolve_message`. The fields are looked up from the scope around the message. -/
def resolveMessage (visible : List String) (fileName pathPrefix : String) :
    DescriptorProto → DescriptorProto × Findings
  | ⟨name, field, extension, nestedType, enumType, extensionRange, oneofDecl, options,
      reservedRange, reservedName⟩ =>
    let selfPath := qualify pathPrefix (name.getD "")
    let fields := field.map (resolveFieldType pathPrefix visible fileName)
    let nested := resolveMessages visible fileName selfPath nestedType
    (⟨name, fields.map Prod.fst, extension, nested.1, enumType, extensionRange, oneofDecl, options,
      reservedRange, reservedName⟩, fields.flatMap Prod.snd ++ nested.2)

def resolveMessages (visible : List String) (fileName pathPrefix : String) :
    List DescriptorProto → List DescriptorProto × Findings
  | [] => ([], [])
  | m :: rest =>
    let first := resolveMessage visible fileName pathPrefix m
    let others := resolveMessages visible fileName pathPrefix rest
    (first.1 :: others.1, first.2 ++ others.2)

end

def unknownType (name context : String) : Finding :=
  .error .unknownType ("unknown type '" ++ name ++ "' referenced by method '" ++ context ++ "'") none ""

/-- A method's request or response type. -/
def resolveMethodType (pkg : String) (visible : List String) (method : MethodDescriptorProto)
    (t : Option String) : Option String × Findings :=
  match t with
  | some t =>
    match resolveTypeName t pkg visible with
    | some r => (some r, [])
    | none => (some t, [unknownType t (method.name.getD "")])
  | none => (none, [])

def resolveMethod (pkg : String) (visible : List String) (m : MethodDescriptorProto) :
    MethodDescriptorProto × Findings :=
  let input := resolveMethodType pkg visible m m.inputType
  let output := resolveMethodType pkg visible m m.outputType
  ({ m with inputType := input.1, outputType := output.1 }, input.2 ++ output.2)

def resolveService (pkg : String) (visible : List String) (s : ServiceDescriptorProto) :
    ServiceDescriptorProto × Findings :=
  let methods := s.method.map (resolveMethod pkg visible)
  ({ s with method := methods.map Prod.fst }, methods.flatMap Prod.snd)

def resolveReferences (fd : FileDescriptorProto) (fileName : String) (visible : List String) :
    FileDescriptorProto × Findings :=
  let pkg := fd.package.getD ""
  let messages := resolveMessages visible fileName pkg fd.messageType
  let services := fd.service.map (resolveService pkg visible)
  ({ fd with messageType := messages.1, service := services.map Prod.fst },
    messages.2 ++ services.flatMap Prod.snd)

inductive OptKind where
  | str
  | bool
  | enum (variants : List String)

def valueMatches : Constant → OptKind → Bool
  | .string _, .str => true
  | .bool _, .bool => true
  | .ident s, .enum variants => variants.contains s
  | _, _ => false

def validateOption (known : List (String × OptKind)) (context file : String) (o : ProtoOption) :
    Findings :=
  if o.name.toList.head? = some '(' then []
  else match known.find? fun entry => entry.1 = o.name with
    | some (_, kind) =>
      if valueMatches o.value kind then []
      else [.error .invalidOption
        ("option '" ++ o.name ++ "' has a value of the wrong type (" ++ context ++ ")") (some o.span)
        file]
    | none =>
      [.warning .invalidOption ("unknown option '" ++ o.name ++ "' (" ++ context ++ ")") (some o.span)
        file]

def validateOptions (known : List (String × OptKind)) (context file : String)
    (opts : List ProtoOption) : Findings :=
  opts.flatMap (validateOption known context file)

def fileOptions : List (String × OptKind) := [
  ("java_package", .str),
  ("java_outer_classname", .str),
  ("java_multiple_files", .bool),
  ("go_package", .str),
  ("cc_enable_arenas", .bool),
  ("cc_generic_services", .bool),
  ("java_generic_services", .bool),
  ("py_generic_services", .bool),
  ("optimize_for", .enum ["SPEED", "CODE_SIZE", "LITE_RUNTIME"]),
  ("deprecated", .bool)]

def messageOptions : List (String × OptKind) :=
  [("deprecated", .bool), ("message_set_wire_format", .bool)]

def fieldOptions : List (String × OptKind) := [
  ("deprecated", .bool),
  ("packed", .bool),
  ("ctype", .enum ["STRING", "CORD", "STRING_PIECE"])]

def enumOptions : List (String × OptKind) := [("allow_alias", .bool), ("deprecated", .bool)]

def enumValueOptions : List (String × OptKind) := [("deprecated", .bool)]

def methodOptions : List (String × OptKind) := [
  ("deprecated", .bool),
  ("idempotency_level", .enum ["IDEMPOTENCY_UNKNOWN", "NO_SIDE_EFFECTS", "IDEMPOTENT"])]

def validateFields (file : String) (fields : List Field) : Findings :=
  fields.flatMap fun f => validateOptions fieldOptions "field option" file f.options

def validateEnum (file : String) (e : Enum) : Findings :=
  validateOptions enumOptions "enum option" file e.options ++
    e.values.flatMap fun v => validateOptions enumValueOptions "enum value option" file v.options

def validateExtension (file : String) (ext : Extension) : Findings :=
  validateOptions [] "extension option" file ext.options ++ validateFields file ext.fields

def validateOneof (file : String) (o : Oneof) : Findings :=
  validateOptions [("deprecated", .bool)] "oneof option" file o.options ++ validateFields file o.fields

mutual

def validateMessageOptions (file : String) : Message → Findings
  | ⟨_, _, fields, oneofs, maps, nestedMessages, nestedEnums, nestedExtends, _, _, _, options, _⟩ =>
    validateOptions messageOptions "message option" file options ++
      validateFields file fields ++ oneofs.flatMap (validateOneof file) ++
      maps.flatMap (fun mf =>
        validateOptions [("deprecated", .bool)] "map field option" file mf.options) ++
      validateMessagesOptions file nestedMessages ++ nestedEnums.flatMap (validateEnum file) ++
      nestedExtends.flatMap (validateExtension file)

def validateMessagesOptions (file : String) : List Message → Findings
  | [] => []
  | m :: rest => validateMessageOptions file m ++ validateMessagesOptions file rest

end

def validateService (file : String) (s : Service) : Findings :=
  validateOptions [] "service option" file s.options ++
    s.methods.flatMap fun m => validateOptions methodOptions "method option" file m.options

def validateOptionsInFile (f : File) : Findings :=
  validateOptions fileOptions "file option" f.name f.options ++
    validateMessagesOptions f.name f.messages ++ f.enums.flatMap (validateEnum f.name) ++
    f.services.flatMap (validateService f.name) ++ f.extensions.flatMap (validateExtension f.name)

structure CompileResult where
  set : FileDescriptorSet
  findings : Findings

/-- All diagnostics, in the order they were pushed. -/
def CompileResult.diagnostics (result : CompileResult) : Diagnostics :=
  result.findings.map fun finding => finding.diagnostic

/-- One file of the loop that builds the symbol table. -/
def collectFile (state : SymbolState × List (String × List String)) (fd : FileDescriptorProto) :
    SymbolState × List (String × List String) :=
  let name := fd.name.getD ""
  let known := (SortedMap.get? state.2 name).getD []
  let collected := collectSymbols fd name { state.1 with byFile := known }
  (collected, mapInsert state.2 name collected.byFile)

/-- The symbol table over all files, and the names each file declares. -/
def collectAll (converted : List FileDescriptorProto) : SymbolState × List (String × List String) :=
  converted.foldl collectFile ({}, [])

/-- The names a file sees: its own and those of the files visible to it. -/
def visibleNames (symbolsByFile : List (String × List String)) (visible : Visibility)
    (name : String) : List String :=
  ((SortedMap.get? visible name).getD []).foldl
    (fun names dep => match SortedMap.get? symbolsByFile dep with
      | some others => setExtend names others
      | none => names)
    ((SortedMap.get? symbolsByFile name).getD [])

/-- `compile_set`, from the files' conversions on. The resolved features are left out. -/
def compileSet (displayFloat : UInt64 → String) (files : List File) : CompileResult :=
  let (byName, duplicates) := indexFiles files
  let cycles := (detectImportCycles byName files).getD []
  let visible := (computeVisibility byName files).getD []
  let converted := files.map fun f => (f, compile displayFloat f)
  let conversions := converted.flatMap fun entry => entry.2.2.map fun d => Finding.mk d entry.1.name
  let (symbols, symbolsByFile) := collectAll (converted.map fun entry => entry.2.1)
  let resolved := converted.map fun entry =>
    resolveReferences entry.2.1 entry.1.name (visibleNames symbolsByFile visible entry.1.name)
  let validated := converted.zip resolved |>.flatMap fun entry =>
    entry.2.2 ++ validateOptionsInFile entry.1.1
  { set := { file := resolved.map Prod.fst }
    findings := duplicates ++ cycles ++ missingImports byName files ++ conversions ++
      symbols.findings ++ validated }

end TptProto.Compiler
