import TptProto.Compiler.Pipeline

/-! Messages inside messages: induction over them, each with the scope around it, and the
passes of the compiler as maps over a message's own parts. -/

namespace TptProto

theorem Language.Message.induction {motive : Language.Message → Prop}
    (step : ∀ m : Language.Message, (∀ n ∈ m.nestedMessages, motive n) → motive m)
    (m : Language.Message) : motive m := by
  refine Language.Message.rec (motive_1 := motive)
    (motive_2 := fun ms => ∀ n ∈ ms, motive n) ?_ ?_ ?_ m
  · intro _ _ _ _ _ _ _ _ _ _ _ _ _ nested
    exact step _ nested
  · simp
  · intro head tail first rest n member
    rcases List.mem_cons.mp member with rfl | inside
    · exact first
    · exact rest n inside

namespace Compiler

open TptProto.Descriptor TptProto.Language

section Source

mutual

/-- A message and every message in it, each with the name of the scope around it. -/
def within (pathPrefix : String) : Message → List (String × Message)
  | ⟨span, name, fields, oneofs, maps, nestedMessages, nestedEnums, nestedExtends, reservedRanges,
      reservedNames, extensionRanges, options, isGroup⟩ =>
    (pathPrefix, ⟨span, name, fields, oneofs, maps, nestedMessages, nestedEnums, nestedExtends,
      reservedRanges, reservedNames, extensionRanges, options, isGroup⟩) ::
      withinAll (qualify pathPrefix name.name) nestedMessages

def withinAll (pathPrefix : String) : List Message → List (String × Message)
  | [] => []
  | m :: rest => within pathPrefix m ++ withinAll pathPrefix rest

end

theorem withinAll_eq (pathPrefix : String) (ms : List Message) :
    withinAll pathPrefix ms = ms.flatMap (within pathPrefix) := by
  induction ms with
  | nil => rw [withinAll, List.flatMap_nil]
  | cons m rest ih => rw [withinAll, List.flatMap_cons, ih]

theorem within_eq (pathPrefix : String) (m : Message) :
    within pathPrefix m = (pathPrefix, m) ::
      m.nestedMessages.flatMap (within (qualify pathPrefix m.name.name)) := by
  rw [← withinAll_eq]
  cases m
  rw [within]

/-- Every message of a file, at any depth, with the scope around it. -/
def fileMessages (f : File) : List (String × Message) :=
  f.messages.flatMap (within (packageName f))

end Source

section Produced

mutual

/-- A descriptor and every descriptor nested in it, with the name of the scope around it. -/
def produced (pathPrefix : String) : DescriptorProto → List (String × DescriptorProto)
  | ⟨name, field, extension, nestedType, enumType, extensionRange, oneofDecl, options,
      reservedRange, reservedName⟩ =>
    (pathPrefix, ⟨name, field, extension, nestedType, enumType, extensionRange, oneofDecl, options,
      reservedRange, reservedName⟩) :: producedAll (qualify pathPrefix (name.getD "")) nestedType

def producedAll (pathPrefix : String) : List DescriptorProto → List (String × DescriptorProto)
  | [] => []
  | m :: rest => produced pathPrefix m ++ producedAll pathPrefix rest

end

theorem producedAll_eq (pathPrefix : String) (ms : List DescriptorProto) :
    producedAll pathPrefix ms = ms.flatMap (produced pathPrefix) := by
  induction ms with
  | nil => rw [producedAll, List.flatMap_nil]
  | cons m rest ih => rw [producedAll, List.flatMap_cons, ih]

theorem produced_eq (pathPrefix : String) (m : DescriptorProto) :
    produced pathPrefix m = (pathPrefix, m) ::
      m.nestedType.flatMap (produced (qualify pathPrefix (m.name.getD ""))) := by
  rw [← producedAll_eq]
  cases m
  rw [produced]

/-- Every message of a file's descriptor, at any depth, with the scope around it. -/
def fileDescriptors (fd : FileDescriptorProto) : List (String × DescriptorProto) :=
  fd.messageType.flatMap (produced (fd.package.getD ""))

end Produced

section Passes

variable (cx : FileContext)

theorem FileContext.convertMessages_eq (pathPrefix : String) (ms : List Message) :
    cx.convertMessages pathPrefix ms = each (cx.convertMessage pathPrefix) ms := by
  induction ms with
  | nil =>
    rw [FileContext.convertMessages]
    rfl
  | cons m rest ih =>
    rw [FileContext.convertMessages, ih]
    rfl

/-- The numbers, names and kinds a message's fields are converted to. -/
def FileContext.ownFields (pathPrefix : String) (m : Message) :
    List FieldDescriptorProto × Diagnostics :=
  let path := FileContext.selfPath pathPrefix m.name.name
  let members := cx.convertOneofs 0 m.oneofs
  let plain := each cx.convertField m.fields
  let mapped := each (FileContext.convertMapField path) m.maps
  (members.1 ++ plain.1 ++ mapped.1, members.2 ++ plain.2 ++ mapped.2)

theorem FileContext.convertMessage_fst (pathPrefix : String) (m : Message) :
    (cx.convertMessage pathPrefix m).1 =
      { name := some m.name.name
        field := (cx.ownFields pathPrefix m).1
        extension := (each cx.convertField (m.nestedExtends.flatMap fun ext => ext.fields)).1
        nestedType := m.maps.map cx.convertEntry ++ m.nestedMessages.map fun n =>
          (cx.convertMessage (FileContext.selfPath pathPrefix m.name.name) n).1
        enumType := (each convertEnum m.nestedEnums).1
        extensionRange := m.extensionRanges.map convertExtensionRange
        oneofDecl := m.oneofs.map fun o => { name := some o.name.name }
        reservedRange := m.reservedRanges.map convertReserved
        reservedName := m.reservedNames.map fun n => n.name } := by
  cases m
  simp only [FileContext.convertMessage, FileContext.convertMessages_eq, FileContext.ownFields, each]

theorem FileContext.convertMessage_snd (pathPrefix : String) (m : Message) :
    (cx.convertMessage pathPrefix m).2 =
      (cx.ownFields pathPrefix m).2 ++
        m.nestedMessages.flatMap (fun n =>
          (cx.convertMessage (FileContext.selfPath pathPrefix m.name.name) n).2) ++
        (each convertEnum m.nestedEnums).2 ++
        (each cx.convertField (m.nestedExtends.flatMap fun ext => ext.fields)).2 := by
  cases m
  simp only [FileContext.convertMessage, FileContext.convertMessages_eq, FileContext.ownFields, each]

theorem collectMessages_eq (fileName pathPrefix : String) (ms : List DescriptorProto)
    (state : SymbolState) :
    collectMessages fileName pathPrefix ms state =
      ms.foldl (fun state m => collectMessage fileName pathPrefix m state) state := by
  induction ms generalizing state with
  | nil => rw [collectMessages, List.foldl_nil]
  | cons m rest ih => rw [collectMessages, List.foldl_cons, ih]

theorem collectMessage_eq (fileName pathPrefix : String) (m : DescriptorProto)
    (state : SymbolState) :
    collectMessage fileName pathPrefix m state =
      m.enumType.foldl (fun state e => insertSymbol fileName state
          (enumSymbol (qualify pathPrefix (m.name.getD "")) e))
        (m.nestedType.foldl (fun state n =>
            collectMessage fileName (qualify pathPrefix (m.name.getD "")) n state)
          (insertSymbol fileName state (qualify pathPrefix (m.name.getD "")))) := by
  rw [← collectMessages_eq]
  cases m
  rw [collectMessage]

theorem resolveMessages_eq (visible : List String) (fileName pathPrefix : String)
    (ms : List DescriptorProto) :
    resolveMessages visible fileName pathPrefix ms =
      (ms.map fun m => (resolveMessage visible fileName pathPrefix m).1,
        ms.flatMap fun m => (resolveMessage visible fileName pathPrefix m).2) := by
  induction ms with
  | nil =>
    rw [resolveMessages]
    rfl
  | cons m rest ih =>
    rw [resolveMessages, ih]
    rfl

theorem resolveMessage_fst (visible : List String) (fileName pathPrefix : String)
    (m : DescriptorProto) :
    (resolveMessage visible fileName pathPrefix m).1 =
      { m with
        field := m.field.map fun f => (resolveFieldType pathPrefix visible fileName f).1
        nestedType := m.nestedType.map fun n =>
          (resolveMessage visible fileName (qualify pathPrefix (m.name.getD "")) n).1 } := by
  cases m
  simp only [resolveMessage, resolveMessages_eq, List.map_map, Function.comp_def]

theorem resolveMessage_snd (visible : List String) (fileName pathPrefix : String)
    (m : DescriptorProto) :
    (resolveMessage visible fileName pathPrefix m).2 =
      m.field.flatMap (fun f => (resolveFieldType pathPrefix visible fileName f).2) ++
        m.nestedType.flatMap fun n =>
          (resolveMessage visible fileName (qualify pathPrefix (m.name.getD "")) n).2 := by
  cases m
  simp only [resolveMessage, resolveMessages_eq, List.flatMap_map]

end Passes

end Compiler

end TptProto
