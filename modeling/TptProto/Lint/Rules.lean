import TptProto.Lint.Lint

/-! What each pass of the comparison asks of the new version. -/

namespace TptProto.Lint

open TptProto.Foundation TptProto.Descriptor

section Reports

@[simp] theorem hasBreaking_append (first second : Report) :
    Report.hasBreaking (first ++ second) = (first.hasBreaking || second.hasBreaking) :=
  List.any_append

theorem hasBreaking_flatMap {α : Type} {items : List α} {report : α → Report} :
    Report.hasBreaking (items.flatMap report) = false ↔
      ∀ item ∈ items, (report item).hasBreaking = false := by
  simp [Report.hasBreaking, List.any_flatMap]

/-- A breaking finding is reported exactly unless the condition holds. -/
theorem hasBreaking_unless {kept : Prop} [Decidable kept] {code message : String} :
    Report.hasBreaking (if kept then [] else [⟨.breaking, code, message⟩]) = false ↔ kept := by
  split <;> simp_all [Report.hasBreaking]

theorem hasBreaking_differ {α : Type} [DecidableEq α] {old new : α} {code message : String} :
    Report.hasBreaking (if old ≠ new then [⟨.breaking, code, message⟩] else []) = false ↔
      old = new := by
  split <;> simp_all [Report.hasBreaking]

theorem hasBreaking_warns {warns : Prop} [Decidable warns] {code message : String} :
    Report.hasBreaking (if warns then [⟨.warning, code, message⟩] else []) = false := by
  split <;> rfl

/-- The comparison of keyed lists: each new item against its counterpart, then the lost ones. -/
theorem hasBreaking_evolves {α κ : Type} [DecidableEq κ] {key : α → κ} {old new : List α}
    {report : α → Report} {compare : α → α → Report} {code : String} {lost : α → String}
    (added : ∀ n, counterpart key old n = none → (report n).hasBreaking = false)
    (compared : ∀ n o, counterpart key old n = some o → report n = compare o n) :
    Report.hasBreaking (new.flatMap report ++ old.flatMap fun o =>
        if new.any fun n => key n = key o then [] else [⟨.breaking, code, lost o⟩]) = false ↔
      Evolves key (fun o n => (compare o n).hasBreaking = false) old new := by
  rw [hasBreaking_append, Bool.or_eq_false_iff, hasBreaking_flatMap, hasBreaking_flatMap]
  constructor
  · rintro ⟨each, none⟩
    refine ⟨fun n member o found => compared n o found ▸ each n member, fun o member => ?_⟩
    simpa using hasBreaking_unless.mp (none o member)
  · rintro ⟨kept, present⟩
    refine ⟨fun n member => ?_, fun o member => hasBreaking_unless.mpr (by simpa using present o member)⟩
    cases found : counterpart key old n with
    | none => exact added n found
    | some o => exact compared n o found ▸ kept n member o found

end Reports

theorem lintPackage_quiet {old new : FileDescriptorProto} :
    (lintPackage old new).hasBreaking = false ↔ old.package.getD "" = new.package.getD "" :=
  hasBreaking_differ

section Fields

/-- The names in JSON agree where both are given. -/
def SameJsonName (old new : FieldDescriptorProto) : Prop :=
  ∀ x, old.jsonName = some x → ∀ y, new.jsonName = some y → x = y

/-- The name, type, label and type name are the same. -/
structure SameDeclaration (old new : FieldDescriptorProto) : Prop where
  name : old.name.getD "" = new.name.getD ""
  type : old.type = new.type
  label : old.label = new.label
  typeName : old.typeName = new.typeName

theorem jsonNameFindings_quiet {msg name : String} {old new : FieldDescriptorProto} :
    (jsonNameFindings msg name old.jsonName new.jsonName).hasBreaking = false ↔
      SameJsonName old new := by
  unfold SameJsonName
  cases old.jsonName with
  | none => simp [jsonNameFindings, Report.hasBreaking]
  | some a =>
    cases new.jsonName with
    | none => simp [jsonNameFindings, Report.hasBreaking]
    | some b => simpa [jsonNameFindings] using hasBreaking_differ

theorem checkFieldCompat_quiet {msg : String} {old new : FieldDescriptorProto} :
    (checkFieldCompat msg old new).hasBreaking = false ↔
      (old.type = new.type ∧ old.label = new.label ∧ old.typeName = new.typeName) ∧
        SameJsonName old new := by
  simp only [checkFieldCompat, hasBreaking_append, Bool.or_eq_false_iff, hasBreaking_differ,
    hasBreaking_warns, jsonNameFindings_quiet, and_true, and_assoc]

theorem lintNewField_quiet {old : DescriptorProto} {msg : String} {nf : FieldDescriptorProto} :
    (lintNewField old msg nf).hasBreaking = false ↔
      ∀ of, oldByNum old (fieldNumber nf) = some of → SameDeclaration of nf ∧ SameJsonName of nf := by
  unfold lintNewField
  dsimp only
  cases oldByNum old (fieldNumber nf) with
  | none => simp [Report.hasBreaking]
  | some of =>
    dsimp only
    by_cases same : of.name.getD "" = nf.name.getD ""
    · rw [if_neg (not_not_intro same), checkFieldCompat_quiet]
      constructor
      · rintro ⟨⟨type, label, typeName⟩, json⟩ _ found
        obtain rfl := Option.some.inj found
        exact ⟨⟨same, type, label, typeName⟩, json⟩
      · intro each
        obtain ⟨declared, json⟩ := each of rfl
        exact ⟨⟨declared.type, declared.label, declared.typeName⟩, json⟩
    · rw [if_pos same]
      constructor
      · intro quiet
        simp [Report.hasBreaking] at quiet
      · intro each
        exact absurd (each of rfl).1.name same

/-- The new message reserves the number or the name of a field. -/
def Reserves (new : DescriptorProto) (f : FieldDescriptorProto) : Prop :=
  reservesNumber new (fieldNumber f) = true ∨ f.name.getD "" ∈ new.reservedName

theorem lintOldField_quiet {new : DescriptorProto} {msg : String} {of : FieldDescriptorProto} :
    (lintOldField new msg of).hasBreaking = false ↔
      hasNumber new (fieldNumber of) = true ∨ Reserves new of := by
  unfold lintOldField Reserves
  dsimp only
  by_cases has : hasNumber new (fieldNumber of) = true
  · simp [has, Report.hasBreaking]
  · by_cases reserved : (reservesNumber new (fieldNumber of) ||
        reservesName new (of.name.getD "")) = true
    · simp_all [Report.hasBreaking, reservesName]
    · simp_all [Report.hasBreaking, reservesName]

/-- What the comparison of fields asks of two versions of a message. -/
structure FieldsKept (old new : DescriptorProto) : Prop where
  same : ∀ nf ∈ new.field, ∀ of, oldByNum old (fieldNumber nf) = some of →
    SameDeclaration of nf ∧ SameJsonName of nf
  removed : ∀ of ∈ old.field, hasNumber new (fieldNumber of) = true ∨ Reserves new of

theorem lintMessageFields_quiet {old new : DescriptorProto} {msg : String} :
    (lintMessageFields old new msg).hasBreaking = false ↔ FieldsKept old new := by
  rw [lintMessageFields, hasBreaking_append, Bool.or_eq_false_iff, hasBreaking_flatMap,
    hasBreaking_flatMap]
  simp only [lintNewField_quiet, lintOldField_quiet]
  exact ⟨fun ⟨same, removed⟩ => ⟨same, removed⟩, fun ⟨same, removed⟩ => ⟨same, removed⟩⟩

end Fields

section Parts

/-- Every reserved range lies in one of the new version, and every reserved name is one. -/
structure ReservationsKept (old new : DescriptorProto) : Prop where
  ranges : ∀ orr ∈ old.reservedRange, ∃ nrr ∈ new.reservedRange,
    rangeCoversRange nrr.start nrr.stop orr.start orr.stop = true
  names : ∀ name ∈ old.reservedName, name ∈ new.reservedName

theorem checkReservedAndExtensions_quiet {old new : DescriptorProto} {msg : String} :
    (checkReservedAndExtensions msg old new).hasBreaking = false ↔ ReservationsKept old new := by
  have warns : Report.hasBreaking (old.extensionRange.flatMap fun oer =>
      if new.extensionRange.any fun ner =>
        rangeCoversRange ner.start ner.stop oer.start oer.stop then []
      else [⟨.warning, "EXTENSION_RANGE_REMOVED", "message `" ++ msg ++ "`: extension range " ++
        showRange oer.start oer.stop ++ " removed or narrowed"⟩]) = false := by
    refine hasBreaking_flatMap.mpr fun oer _ => ?_
    split <;> rfl
  rw [checkReservedAndExtensions, hasBreaking_append, warns, Bool.or_false, hasBreaking_append,
    Bool.or_eq_false_iff, hasBreaking_flatMap, hasBreaking_flatMap]
  simp only [hasBreaking_unless, List.any_eq_true, List.contains_iff_mem]
  exact ⟨fun ⟨ranges, names⟩ => ⟨ranges, names⟩, fun ⟨ranges, names⟩ => ⟨ranges, names⟩⟩

/-- The new version of an enum has every number of the old one. -/
def ValuesKept (oe ne : EnumDescriptorProto) : Prop :=
  ∀ ov ∈ oe.value, ∃ v ∈ ne.value, v.number = ov.number

theorem lintEnumValues_quiet {name : String} {oe ne : EnumDescriptorProto} :
    (lintEnumValues name oe ne).hasBreaking = false ↔ ValuesKept oe ne := by
  unfold lintEnumValues
  dsimp only
  rw [hasBreaking_append, Bool.or_eq_false_iff, hasBreaking_flatMap, hasBreaking_flatMap]
  simp only [hasBreaking_unless, List.any_eq_true, decide_eq_true_eq]
  refine ⟨fun quiet => quiet.1, fun kept => ⟨kept, fun nv _ => ?_⟩⟩
  split <;> rfl

theorem lintEnums_quiet {old new : List EnumDescriptorProto} {pathPrefix : String} :
    (lintEnums old new pathPrefix).hasBreaking = false ↔
      Evolves (fun e => e.name) ValuesKept old new := by
  have evolves : (lintEnums old new pathPrefix).hasBreaking = false ↔ Evolves (fun e => e.name)
      (fun oe ne => (lintEnumValues (pathPrefix ++ ne.name.getD "") oe ne).hasBreaking = false)
      old new := by
    refine hasBreaking_evolves (fun ne none => ?_) fun ne oe found => ?_
    · simp only [none]
      rfl
    · simp only [found]
  simpa only [lintEnumValues_quiet] using evolves

/-- A method's request, response and streaming are the same. -/
structure SameMethod (old new : MethodDescriptorProto) : Prop where
  input : old.inputType = new.inputType
  output : old.outputType = new.outputType
  clientStreaming : old.clientStreaming = new.clientStreaming
  serverStreaming : old.serverStreaming = new.serverStreaming

theorem checkMethodCompat_quiet {service : String} {old new : MethodDescriptorProto} :
    (checkMethodCompat service new old).hasBreaking = false ↔ SameMethod old new := by
  unfold checkMethodCompat
  dsimp only
  rw [hasBreaking_append, hasBreaking_append, Bool.or_eq_false_iff, Bool.or_eq_false_iff,
    hasBreaking_differ, hasBreaking_differ]
  constructor
  · rintro ⟨⟨input, output⟩, streaming⟩
    by_cases differs : old.clientStreaming ≠ new.clientStreaming ∨
        old.serverStreaming ≠ new.serverStreaming
    · simp [differs, Report.hasBreaking] at streaming
    · exact ⟨input, output, Decidable.not_not.mp fun other => differs (.inl other),
        Decidable.not_not.mp fun other => differs (.inr other)⟩
  · rintro ⟨input, output, client, server⟩
    simp [input, output, client, server, Report.hasBreaking]

theorem lintServices_quiet {old new : List ServiceDescriptorProto} :
    (lintServices old new).hasBreaking = false ↔
      Evolves (fun s => s.name)
        (fun os ns => Evolves (fun m => m.name) SameMethod os.method ns.method) old new := by
  have methods : ∀ os ns : ServiceDescriptorProto, (lintMethods os ns).hasBreaking = false ↔
      Evolves (fun m => m.name) SameMethod os.method ns.method := by
    intro os ns
    have evolves : (lintMethods os ns).hasBreaking = false ↔ Evolves (fun m => m.name)
        (fun om nm => (checkMethodCompat (ns.name.getD "") nm om).hasBreaking = false)
        os.method ns.method := by
      refine hasBreaking_evolves (fun nm none => ?_) fun nm om found => ?_
      · simp only [none]
        rfl
      · simp only [found]
    simpa only [checkMethodCompat_quiet] using evolves
  simp only [← methods]
  refine hasBreaking_evolves (fun ns none => ?_) fun ns os found => ?_
  · simp only [none]
    rfl
  · simp only [found]

end Parts

section Messages

theorem lintNewMessages_eq (old new : List DescriptorProto) (pathPrefix : String) :
    lintNewMessages old pathPrefix new = new.flatMap (lintMessage old pathPrefix) := by
  induction new with
  | nil => rw [lintNewMessages, List.flatMap_nil]
  | cons nm rest ih => rw [lintNewMessages, List.flatMap_cons, ih]

/-- A message against its old version, with all in it. -/
def comparePair (pathPrefix : String) (om nm : DescriptorProto) : Report :=
  let name := pathPrefix ++ nm.name.getD ""
  lintMessageFields om nm name ++ checkReservedAndExtensions name om nm ++
    lintMessages om.nestedType nm.nestedType (name ++ ".") ++ lintEnums om.enumType nm.enumType name

theorem lintMessage_eq (old : List DescriptorProto) (pathPrefix : String) (nm : DescriptorProto) :
    lintMessage old pathPrefix nm = match counterpart (fun m => m.name) old nm with
      | none => [⟨.safe, "MESSAGE_ADDED", "message `" ++ (pathPrefix ++ nm.name.getD "") ++ "` added"⟩]
      | some om => comparePair pathPrefix om nm := by
  cases nm
  rw [lintMessage]
  rfl

theorem lintMessages_quiet {old new : List DescriptorProto} {pathPrefix : String} :
    (lintMessages old new pathPrefix).hasBreaking = false ↔
      Evolves (fun m => m.name)
        (fun om nm => (comparePair pathPrefix om nm).hasBreaking = false) old new := by
  rw [lintMessages, lintNewMessages_eq, removedMessages]
  refine hasBreaking_evolves (fun nm none => ?_) fun nm om found => ?_
  · rw [lintMessage_eq, none]
    rfl
  · rw [lintMessage_eq, found]

theorem comparePair_quiet {pathPrefix : String} {om nm : DescriptorProto} :
    (comparePair pathPrefix om nm).hasBreaking = false ↔
      FieldsKept om nm ∧ ReservationsKept om nm ∧
        (lintMessages om.nestedType nm.nestedType
          (pathPrefix ++ nm.name.getD "" ++ ".")).hasBreaking = false ∧
        Evolves (fun e => e.name) ValuesKept om.enumType nm.enumType := by
  unfold comparePair
  dsimp only
  rw [hasBreaking_append, hasBreaking_append, hasBreaking_append, Bool.or_eq_false_iff,
    Bool.or_eq_false_iff, Bool.or_eq_false_iff, lintMessageFields_quiet,
    checkReservedAndExtensions_quiet, lintEnums_quiet]
  simp only [and_assoc]

end Messages

theorem lint_quiet {old new : FileDescriptorProto} :
    (lint old new).hasBreaking = false ↔
      old.package.getD "" = new.package.getD "" ∧
        (lintMessages old.messageType new.messageType "").hasBreaking = false ∧
        Evolves (fun e => e.name) ValuesKept old.enumType new.enumType ∧
        Evolves (fun s => s.name)
          (fun os ns => Evolves (fun m => m.name) SameMethod os.method ns.method)
          old.service new.service := by
  rw [lint, hasBreaking_append, hasBreaking_append, hasBreaking_append, Bool.or_eq_false_iff,
    Bool.or_eq_false_iff, Bool.or_eq_false_iff, lintPackage_quiet, lintEnums_quiet,
    lintServices_quiet]
  simp only [and_assoc]

end TptProto.Lint
