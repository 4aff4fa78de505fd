import TptProto.Descriptor.RoundTrip
import TptProto.Reflect.Pool

/-! The reflection service: which file it answers with for a symbol and for an extension. -/

namespace TptProto.Grpc.Reflection

open TptProto.Core TptProto.Foundation TptProto.Descriptor
open TptProto.Reflect (qualified)

/-- `str::trim_start_matches('.')`. -/
def trimDots (text : String) : String := String.ofList (text.toList.dropWhile (· = '.'))

/-- `str::strip_prefix('.')`, or the text itself. -/
def stripDot (text : String) : String :=
  match text.toList with
  | '.' :: rest => String.ofList rest
  | _ => text

def qualify (scope name : String) : String :=
  if stripDot scope = "" then name else stripDot scope ++ "." ++ name

def serviceFqn (f : FileDescriptorProto) (svc : ServiceDescriptorProto) : String :=
  qualify (f.package.getD "") (svc.name.getD "")

section Messages

structure ExtensionRequest where
  containingType : String := ""
  extensionNumber : Int32 := 0

structure ServerReflectionRequest where
  host : String := ""
  fileByFilename : String := ""
  fileContainingSymbol : String := ""
  fileContainingExtensionStr : String := ""
  fileContainingExtension : Option ExtensionRequest := none
  allExtensionNumbersOfType : String := ""
  listServicesMarker : Bool := false

structure ErrorResponse where
  errorCode : Int32
  errorMessage : String

structure AllExtensionNumbersResponse where
  baseTypeName : String
  extensionNumber : List Int32

structure ServerReflectionResponse where
  validHost : String
  errorResponse : Option ErrorResponse := none
  /-- The names of the services. -/
  listServicesResponse : Option (List String) := none
  fileDescriptorResponse : Option (List (List UInt8)) := none
  allExtensionNumbersResponse : Option AllExtensionNumbersResponse := none

/-- What a response says. A file comes with its encoding. -/
inductive Reply where
  | services (names : List String)
  | file (f : FileDescriptorProto) (bytes : List UInt8)
  | extensions (numbers : AllExtensionNumbersResponse)
  | error (code : Int32) (message : String)

def respond (host : String) : Reply → List ServerReflectionResponse
  | .services names => [{ validHost := host, listServicesResponse := some names }]
  | .file _ bytes => [{ validHost := host, fileDescriptorResponse := some [bytes] }]
  | .extensions numbers => [{ validHost := host, allExtensionNumbersResponse := some numbers }]
  | .error code message => [{ validHost := host, errorResponse := some ⟨code, message⟩ }]

end Messages

section Service

mutual

/-- `nested_message_symbol`: whether something in a message has the name. -/
def nestedMessageSymbol (scope norm : String) : DescriptorProto → Bool
  | ⟨_, _, _, nestedType, enumType, _, _, _, _, _⟩ =>
    messageSymbols scope norm nestedType ||
      enumType.any fun e => trimDots (qualify scope (e.name.getD "")) = norm

/-- The loop over messages, which looks at each and then into it. -/
def messageSymbols (scope norm : String) : List DescriptorProto → Bool
  | [] => false
  | m :: rest =>
    let fqn := qualify scope (m.name.getD "")
    trimDots fqn = norm || nestedMessageSymbol fqn norm m || messageSymbols scope norm rest

end

/-- The loop over services. Beside a service and its methods it takes the service's name with its
own simple name again. -/
def serviceSymbol (f : FileDescriptorProto) (norm : String) (svc : ServiceDescriptorProto) : Bool :=
  let base := trimDots (serviceFqn f svc)
  base = norm || trimDots (base ++ "." ++ svc.name.getD "") = norm ||
    svc.method.any fun m => trimDots (base ++ "." ++ m.name.getD "") = norm

def fileHasSymbol (norm : String) (f : FileDescriptorProto) : Bool :=
  f.service.any (serviceSymbol f norm) || messageSymbols (f.package.getD "") norm f.messageType ||
    f.enumType.any fun e => trimDots (qualify (f.package.getD "") (e.name.getD "")) = norm

/-- `file_bytes_for_symbol`, before the file is encoded. -/
def fileForSymbol (set : FileDescriptorSet) (symbol : String) : Option FileDescriptorProto :=
  set.file.find? (fileHasSymbol (trimDots symbol))

/-- `encode_to_vec().ok()`. It fails for no file, so where the search stops is where it answers. -/
def encodeToVec (f : FileDescriptorProto) : Option (List UInt8) :=
  match f.encode with
  | .ok bytes => some bytes
  | _ => none

def listServiceNames (set : FileDescriptorSet) : List String :=
  (set.file.flatMap fun f => f.service.map (serviceFqn f)).mergeSort

mutual

/-- The extensions that a message declares, and those in it. -/
def extensionsIn : DescriptorProto → List FieldDescriptorProto
  | ⟨_, _, extension, nestedType, _, _, _, _, _, _⟩ => extension ++ extensionsInAll nestedType

def extensionsInAll : List DescriptorProto → List FieldDescriptorProto
  | [] => []
  | m :: rest => extensionsIn m ++ extensionsInAll rest

end

def fileExtensions (f : FileDescriptorProto) : List FieldDescriptorProto :=
  f.extension ++ extensionsInAll f.messageType

/-- The extension extends the type, leading dots aside. -/
def extendsType (typeName : String) (ext : FieldDescriptorProto) : Bool :=
  (ext.extendee.map fun e => (trimDots e = trimDots typeName : Bool)).getD false

def allExtensionNumbers (set : FileDescriptorSet) (typeName : String) :
    Option AllExtensionNumbersResponse :=
  let numbers := (set.file.flatMap fileExtensions).filterMap fun ext =>
    if extendsType typeName ext then ext.number else none
  if numbers = [] then none
  else some ⟨trimDots typeName, (numbers.foldl (fun set n => SortedMap.insert set n ()) []).map Prod.fst⟩

/-- A file for a symbol, or the error that none has it. -/
def replyForSymbol (set : FileDescriptorSet) (symbol missing : String) : Reply :=
  match (fileForSymbol set symbol).bind fun f => (encodeToVec f).map fun bytes => (f, bytes) with
  | some (f, bytes) => .file f bytes
  | none => .error 5 missing

def reply (set : FileDescriptorSet) (req : ServerReflectionRequest) : Reply :=
  if req.listServicesMarker then .services (listServiceNames set)
  else if req.fileByFilename ≠ "" then
    match set.file.find? fun f => f.name = some req.fileByFilename with
    | some f =>
      match encodeToVec f with
      | some bytes => .file f bytes
      | none => .error 13 "failed to encode descriptor"
    | none => .error 5 s!"file not found: {req.fileByFilename}"
  else if req.fileContainingSymbol ≠ "" then
    replyForSymbol set req.fileContainingSymbol s!"symbol not found: {req.fileContainingSymbol}"
  else if req.fileContainingExtensionStr ≠ "" ∨ req.fileContainingExtension.isSome then
    let typeName := (req.fileContainingExtension.map fun e => e.containingType).getD
      req.fileContainingExtensionStr
    replyForSymbol set typeName s!"extension host not found: {typeName}"
  else if req.allExtensionNumbersOfType ≠ "" then
    match allExtensionNumbers set req.allExtensionNumbersOfType with
    | some numbers => .extensions numbers
    | none => .error 5 s!"type not found: {req.allExtensionNumbersOfType}"
  else .error 3 "no recognized reflection request"

def handle (set : FileDescriptorSet) (req : ServerReflectionRequest) :
    List ServerReflectionResponse :=
  respond req.host (reply set req)

end Service

section Declarations

mutual

/-- The full names of a message and of all that it declares. -/
def symbolsIn (scope : String) : DescriptorProto → List String
  | ⟨name, _, _, nestedType, enumType, _, _, _, _, _⟩ =>
    let fqn := qualified scope (name.getD "")
    fqn :: (symbolsInAll fqn nestedType ++ enumType.map fun e => qualified fqn (e.name.getD ""))

def symbolsInAll (scope : String) : List DescriptorProto → List String
  | [] => []
  | m :: rest => symbolsIn scope m ++ symbolsInAll scope rest

end

/-- The full names of a service and its methods. -/
def serviceSymbols (scope : String) (svc : ServiceDescriptorProto) : List String :=
  let fqn := qualified scope (svc.name.getD "")
  fqn :: svc.method.map fun m => qualified fqn (m.name.getD "")

/-- The full names of all messages, enums, services and methods that a file declares. -/
def fileSymbols (f : FileDescriptorProto) : List String :=
  f.service.flatMap (serviceSymbols (f.package.getD "")) ++
    symbolsInAll (f.package.getD "") f.messageType ++
      f.enumType.map fun e => qualified (f.package.getD "") (e.name.getD "")

/-- Each service's full name with its simple name again. -/
def repeatedNames (f : FileDescriptorProto) : List String :=
  f.service.map fun svc =>
    qualified (qualified (f.package.getD "") (svc.name.getD "")) (svc.name.getD "")

/-- Some extension of the type with the number is declared in the file. -/
def DeclaresExtension (f : FileDescriptorProto) (typeName : String) (number : Int32) : Prop :=
  ∃ ext ∈ fileExtensions f, extendsType typeName ext = true ∧ ext.number = some number

/-- The service answers the request with the file. -/
def Answers (set : FileDescriptorSet) (req : ServerReflectionRequest) (f : FileDescriptorProto) : Prop :=
  ∃ bytes, f.encode = .ok bytes ∧ reply set req = .file f bytes

/-- The answer for a symbol is a file that declares it, and there is one if any file does. One dot in
front of the query is optional. -/
structure SymbolExact (set : FileDescriptorSet) (query : String) : Prop where
  sound : ∀ f, Answers set { fileContainingSymbol := query } f → stripDot query ∈ fileSymbols f
  complete : ∀ f ∈ set.file, stripDot query ∈ fileSymbols f →
    ∃ g, Answers set { fileContainingSymbol := query } g

/-- Any answer for an extension is a file that declares it. -/
def ExtensionSound (set : FileDescriptorSet) (typeName : String) (number : Int32) : Prop :=
  ∀ f, Answers set { fileContainingExtension := some ⟨typeName, number⟩ } f →
    DeclaresExtension f typeName number

/-- The file declares something of the name, or repeats a service's name to it, leading dots aside. -/
def Names (name : String) (f : FileDescriptorProto) : Prop :=
  ∃ symbol ∈ fileSymbols f ++ repeatedNames f, trimDots symbol = trimDots name

instance (name : String) (f : FileDescriptorProto) : Decidable (Names name f) := by
  unfold Names
  infer_instance

/-- No file in front of the first that declares the symbol has a name that the search confuses with
it. The empty query is not taken for one. -/
structure Unconfused (set : FileDescriptorSet) (query : String) : Prop where
  nonempty : query = "" → ∀ f ∈ set.file, "" ∉ fileSymbols f
  names : query ≠ "" →
    ∀ f ∈ set.file.takeWhile fun g => stripDot query ∉ fileSymbols g, ¬ Names query f

end Declarations

section Dots

/-- A name behind a scope, neither with leading dots. -/
def joined (scope name : String) : String :=
  if scope = "" then trimDots name else scope ++ "." ++ name

variable {scope name norm : String}

private theorem trimDots_toList (text : String) :
    (trimDots text).toList = text.toList.dropWhile (· = '.') := by
  rw [trimDots, String.toList_ofList]

private theorem trimDots_eq_empty_iff (text : String) :
    trimDots text = "" ↔ text.toList.dropWhile (· = '.') = [] := by
  rw [← String.toList_inj, trimDots_toList]
  rfl

private theorem trimDots_trimDots (text : String) : trimDots (trimDots text) = trimDots text := by
  rw [← String.toList_inj, trimDots_toList, trimDots_toList]
  cases rest : text.toList.dropWhile (· = '.') with
  | nil => rfl
  | cons c cs =>
    have kept : ¬ (decide (c = '.') = true) := by
      have head := List.head?_dropWhile_not (fun c : Char => decide (c = '.')) text.toList
      rw [rest] at head
      simpa using head
    exact List.dropWhile_cons_of_neg kept

theorem trimDots_scoped (scope name : String) :
    trimDots (scope ++ "." ++ name) = joined (trimDots scope) name := by
  have spelled : (scope ++ "." ++ name).toList = scope.toList ++ '.' :: name.toList := by
    simp [String.toList_append]
  unfold joined
  split
  · rename_i empty
    rw [trimDots_eq_empty_iff] at empty
    rw [← String.toList_inj, trimDots_toList, spelled, List.dropWhile_append, empty, trimDots_toList]
    simp
  · rename_i nonempty
    rw [trimDots_eq_empty_iff] at nonempty
    rw [← String.toList_inj, trimDots_toList, spelled, List.dropWhile_append,
      if_neg (by simpa using nonempty)]
    simp [String.toList_append, trimDots_toList]

theorem trimDots_stripDot (text : String) : trimDots (stripDot text) = trimDots text := by
  unfold stripDot
  split
  · rename_i rest spelled
    rw [← String.toList_inj, trimDots_toList, trimDots_toList, spelled, String.toList_ofList]
    rfl
  · rfl

theorem trimDots_qualified (scope name : String) :
    trimDots (qualified scope name) = joined (trimDots scope) name := by
  unfold qualified
  split
  · rename_i empty
    have nothing : scope = "" := by simpa using empty
    subst nothing
    rfl
  · exact trimDots_scoped scope name

theorem trimDots_qualify (scope name : String) :
    trimDots (qualify scope name) = joined (trimDots scope) name := by
  unfold qualify
  split
  · rename_i empty
    have nothing : trimDots scope = "" := by
      rw [← trimDots_stripDot, empty]
      rfl
    rw [joined, if_pos nothing]
  · rw [trimDots_scoped, trimDots_stripDot]

end Dots

section Search

/-- One of the names is the one looked for, leading dots aside. -/
def Hits (norm : String) (names : List String) : Prop := ∃ name ∈ names, trimDots name = norm

variable {norm : String}

theorem hits_cons {name : String} {names : List String} :
    Hits norm (name :: names) ↔ trimDots name = norm ∨ Hits norm names := by
  simp only [Hits, List.mem_cons, exists_eq_or_imp]

theorem hits_append {first second : List String} :
    Hits norm (first ++ second) ↔ Hits norm first ∨ Hits norm second := by
  simp only [Hits, List.mem_append, or_and_right, exists_or]

theorem hits_map {α : Type} {f : α → String} {items : List α} :
    Hits norm (items.map f) ↔ ∃ x ∈ items, trimDots (f x) = norm := by
  constructor
  · rintro ⟨_, member, same⟩
    obtain ⟨x, inside, rfl⟩ := List.mem_map.mp member
    exact ⟨x, inside, same⟩
  · rintro ⟨x, inside, same⟩
    exact ⟨f x, List.mem_map_of_mem inside, same⟩

theorem hits_flatMap {α : Type} {f : α → List String} {items : List α} :
    Hits norm (items.flatMap f) ↔ ∃ x ∈ items, Hits norm (f x) := by
  constructor
  · rintro ⟨name, member, same⟩
    obtain ⟨x, inside, here⟩ := List.mem_flatMap.mp member
    exact ⟨x, inside, name, here, same⟩
  · rintro ⟨x, inside, name, here, same⟩
    exact ⟨name, List.mem_flatMap.mpr ⟨x, inside, here⟩, same⟩

/-- A loop over enums, which one scope has as the other. -/
private theorem enums_iff {scope scope' : String} (same : trimDots scope = trimDots scope')
    (enums : List EnumDescriptorProto) :
    (enums.any fun e => trimDots (qualify scope (e.name.getD "")) = norm) = true ↔
      Hits norm (enums.map fun e => qualified scope' (e.name.getD "")) := by
  simp only [hits_map, List.any_eq_true, decide_eq_true_eq, trimDots_qualify, trimDots_qualified, same]

mutual

/-- A message is searched for exactly the names that it declares, leading dots aside. -/
private theorem message_iff (m : DescriptorProto) {scope scope' : String}
    (same : trimDots scope = trimDots scope') :
    (trimDots (qualify scope (m.name.getD "")) = norm ∨
        nestedMessageSymbol (qualify scope (m.name.getD "")) norm m = true) ↔
      Hits norm (symbolsIn scope' m) := by
  match m with
  | ⟨name, _, _, nestedType, enumType, _, _, _, _, _⟩ =>
    have inner : trimDots (qualify scope (name.getD "")) = trimDots (qualified scope' (name.getD "")) := by
      rw [trimDots_qualify, trimDots_qualified, same]
    simp only [nestedMessageSymbol, symbolsIn, Bool.or_eq_true, hits_cons, hits_append,
      messages_iff nestedType inner, enums_iff inner, inner]

private theorem messages_iff (ms : List DescriptorProto) {scope scope' : String}
    (same : trimDots scope = trimDots scope') :
    messageSymbols scope norm ms = true ↔ Hits norm (symbolsInAll scope' ms) := by
  match ms with
  | [] => simp [messageSymbols, symbolsInAll, Hits]
  | m :: rest =>
    simp only [messageSymbols, symbolsInAll, Bool.or_eq_true, decide_eq_true_eq, message_iff m same,
      messages_iff rest same, hits_append]

end

/-- The search takes exactly the declared names and the repeated ones, leading dots aside. -/
theorem fileHasSymbol_iff (f : FileDescriptorProto) :
    fileHasSymbol norm f = true ↔ Hits norm (fileSymbols f ++ repeatedNames f) := by
  have service (svc : ServiceDescriptorProto) : serviceSymbol f norm svc = true ↔
      Hits norm (serviceSymbols (f.package.getD "") svc) ∨
        trimDots (qualified (qualified (f.package.getD "") (svc.name.getD "")) (svc.name.getD "")) =
          norm := by
    have base : trimDots (serviceFqn f svc) =
        trimDots (qualified (f.package.getD "") (svc.name.getD "")) := by
      rw [serviceFqn, trimDots_qualify, trimDots_qualified]
    simp only [serviceSymbol, serviceSymbols, Bool.or_eq_true, decide_eq_true_eq, List.any_eq_true,
      hits_cons, hits_map, trimDots_scoped, trimDots_trimDots, base]
    simp only [trimDots_qualified (qualified (f.package.getD "") (svc.name.getD ""))]
    rw [or_assoc, or_assoc, or_comm (b := Exists _)]
  have services : f.service.any (serviceSymbol f norm) = true ↔
      Hits norm (f.service.flatMap (serviceSymbols (f.package.getD ""))) ∨
        Hits norm (repeatedNames f) := by
    simp only [repeatedNames, hits_flatMap, hits_map, List.any_eq_true, service, and_or_left, exists_or]
  simp only [fileHasSymbol, fileSymbols, Bool.or_eq_true, services, messages_iff _ rfl,
    enums_iff rfl, hits_append]
  constructor
  · rintro (((declared | repeated) | declared) | declared)
    · exact .inl (.inl (.inl declared))
    · exact .inr repeated
    · exact .inl (.inl (.inr declared))
    · exact .inl (.inr declared)
  · rintro (((declared | declared) | declared) | repeated)
    · exact .inl (.inl (.inl declared))
    · exact .inl (.inr declared)
    · exact .inr declared
    · exact .inl (.inl (.inr repeated))

end Search

section Answers

variable {set : FileDescriptorSet}

/-- Every file is encoded. -/
private theorem encodeToVec_eq (f : FileDescriptorProto) :
    ∃ bytes, f.encode = .ok bytes ∧ encodeToVec f = some bytes := by
  obtain ⟨items, encoded, _⟩ := @FileDescriptorProto.writes .default 0 f
  exact ⟨_, encoded, by rw [encodeToVec, encoded]⟩

private theorem replyForSymbol_eq_file {symbol missing : String} {f : FileDescriptorProto}
    {bytes : List UInt8} : replyForSymbol set symbol missing = .file f bytes ↔
      fileForSymbol set symbol = some f ∧ f.encode = .ok bytes := by
  unfold replyForSymbol
  cases found : fileForSymbol set symbol with
  | none => simp
  | some g =>
    obtain ⟨encoding, encoded, vec⟩ := encodeToVec_eq g
    simp only [Option.bind_some, vec, Option.map_some, Reply.file.injEq, Option.some.injEq]
    constructor
    · rintro ⟨rfl, rfl⟩
      exact ⟨rfl, encoded⟩
    · rintro ⟨rfl, again⟩
      exact ⟨rfl, Outcome.ok.inj (encoded.symm.trans again)⟩

private theorem answers_iff {req : ServerReflectionRequest} {symbol missing : String}
    (asked : reply set req = replyForSymbol set symbol missing) (f : FileDescriptorProto) :
    Answers set req f ↔ fileForSymbol set symbol = some f := by
  unfold Answers
  rw [asked]
  constructor
  · rintro ⟨bytes, _, same⟩
    exact (replyForSymbol_eq_file.mp same).1
  · intro found
    obtain ⟨bytes, encoded, _⟩ := encodeToVec_eq f
    exact ⟨bytes, encoded, replyForSymbol_eq_file.mpr ⟨found, encoded⟩⟩

/-- What is found first has a property that only found things have, if and only if nothing in front
of the first with the property is found. -/
private theorem find?_iff {α : Type} {p : α → Bool} {Q : α → Prop} [DecidablePred Q]
    (implies : ∀ x, Q x → p x = true) (l : List α) :
    (∀ x, l.find? p = some x → Q x) ↔ ∀ x ∈ l.takeWhile fun x => ¬ Q x, p x = false := by
  induction l with
  | nil => simp
  | cons x rest ih =>
    by_cases held : Q x
    · simp [implies x held, held]
    · rw [List.takeWhile_cons_of_pos (by simpa using held), List.forall_mem_cons, ← ih]
      cases found : p x with
      | false => simp [found]
      | true => simp [found, held]

/-- The symbol is looked up exactly if and only if nothing is confused with it. -/
theorem symbolExact_iff (query : String) : SymbolExact set query ↔ Unconfused set query := by
  by_cases empty : query = ""
  · subst empty
    have silent : ∀ f, ¬ Answers set { fileContainingSymbol := "" } f := by
      rintro f ⟨bytes, _, same⟩
      cases same
    constructor
    · intro exact
      refine ⟨fun _ f member declared => ?_, fun other => absurd rfl other⟩
      obtain ⟨g, answered⟩ := exact.complete f member declared
      exact silent g answered
    · intro unconfused
      exact ⟨fun f answered => absurd answered (silent f),
        fun f member declared => absurd declared (unconfused.nonempty rfl f member)⟩
  · have answered := @answers_iff set { fileContainingSymbol := query } query
      s!"symbol not found: {query}" (by simp [reply, empty])
    have found (f : FileDescriptorProto) (declared : stripDot query ∈ fileSymbols f) :
        fileHasSymbol (trimDots query) f = true := by
      rw [fileHasSymbol_iff]
      exact ⟨stripDot query, List.mem_append_left _ declared, trimDots_stripDot query⟩
    have first := find?_iff found set.file
    have sound : (∀ f, Answers set { fileContainingSymbol := query } f →
        stripDot query ∈ fileSymbols f) ↔
          ∀ f ∈ set.file.takeWhile fun g => stripDot query ∉ fileSymbols g, ¬ Names query f := by
      simp only [answered]
      refine first.trans (forall₂_congr fun f _ => ?_)
      rw [← Bool.not_eq_true, fileHasSymbol_iff]
      rfl
    constructor
    · intro exact
      exact ⟨fun nothing => absurd nothing empty, fun _ => sound.mp exact.sound⟩
    · intro unconfused
      refine ⟨sound.mpr (unconfused.names empty), fun f member declared => ?_⟩
      obtain ⟨g, here⟩ := Option.isSome_iff_exists.mp
        (List.find?_isSome.mpr ⟨f, member, found f declared⟩)
      exact ⟨g, (answered g).mpr here⟩

/-- An extension is looked up soundly if and only if the first file with a name like that of its type
declares it. -/
theorem extensionSound_iff (typeName : String) (number : Int32) :
    ExtensionSound set typeName number ↔
      ∀ f ∈ set.file.find? fun f => Names typeName f, DeclaresExtension f typeName number := by
  have answered := @answers_iff set { fileContainingExtension := some ⟨typeName, number⟩ } typeName
    s!"extension host not found: {typeName}" (by simp [reply])
  have names : (fun f => decide (Names typeName f)) = fileHasSymbol (trimDots typeName) := by
    funext f
    rw [Bool.eq_iff_iff, decide_eq_true_eq, fileHasSymbol_iff]
    rfl
  unfold ExtensionSound
  simp only [answered, fileForSymbol, Option.mem_def, names]

end Answers

/-- A symbol is looked up exactly if and only if nothing is confused with it, and an extension soundly
if and only if the first file with a name like that of its type declares it. -/
theorem reflection_lookup_iff (set : FileDescriptorSet) :
    (∀ query, SymbolExact set query ↔ Unconfused set query) ∧
      ∀ typeName number, ExtensionSound set typeName number ↔
        ∀ f ∈ set.file.find? fun f => Names typeName f, DeclaresExtension f typeName number :=
  ⟨symbolExact_iff, extensionSound_iff⟩

private def usersFile : FileDescriptorProto :=
  { name := some "ex.proto", package := some "ex", messageType := [{ name := some "Person" }],
    service := [{ name := some "UserService" }] }

private def users : FileDescriptorSet := { file := [usersFile] }

/-- A service's name repeated, a name with dots in front, and a number that nothing extends get a
file. -/
theorem not_reflection_lookup :
    ¬ SymbolExact users "ex.UserService.UserService" ∧ ¬ SymbolExact users "..ex.Person" ∧
      ¬ ExtensionSound users "ex.Person" 7 := by
  refine ⟨?_, ?_, ?_⟩
  · rw [symbolExact_iff]
    intro unconfused
    apply unconfused.names (by decide) usersFile
    · rw [users, List.takeWhile_cons_of_pos (by decide)]
      exact List.mem_cons_self
    · decide
  · rw [symbolExact_iff]
    intro unconfused
    apply unconfused.names (by decide) usersFile
    · rw [users, List.takeWhile_cons_of_pos (by decide)]
      exact List.mem_cons_self
    · decide
  · rw [extensionSound_iff]
    intro sound
    obtain ⟨ext, member, _⟩ := sound usersFile (List.find?_cons_of_pos (by decide))
    cases member

end TptProto.Grpc.Reflection
