import TptProto.Lint.Transitive

/-! When a comparison finds nothing at all, and when that of a file with itself does. An item is
compared with the first of its name, and a field with the last of its number. -/

namespace TptProto.Lint

open TptProto.Foundation TptProto.Descriptor TptProto.Compiler TptProto.Language

section Statement

/-- All that is compared of two fields is the same; a name in JSON may only be added. -/
structure FieldSame (of nf : FieldDescriptorProto) : Prop where
  declared : SameDeclaration of nf
  jsonName : ∀ name, of.jsonName = some name → nf.jsonName = some name
  default : of.defaultValue = nf.defaultValue

/-- Two enums have the same numbers. -/
def NumbersSame (oe ne : EnumDescriptorProto) : Prop := ValuesKept oe ne ∧ ValuesKept ne oe

/-- What is compared of two messages, but for the messages in them. -/
structure PairSame (om nm : DescriptorProto) : Prop where
  fields : ∀ nf ∈ nm.field, ∃ of, oldByNum om (fieldNumber nf) = some of ∧ FieldSame of nf
  numbers : ∀ of ∈ om.field, hasNumber nm (fieldNumber of) = true
  reserved : ReservationsKept om nm
  extensions : ∀ oer ∈ om.extensionRange, ∃ ner ∈ nm.extensionRange,
    rangeCoversRange ner.start ner.stop oer.start oer.stop = true
  nested : Unaltered (fun m => m.name) (fun _ _ => True) om.nestedType nm.nestedType
  enums : Unaltered (fun e => e.name) NumbersSame om.enumType nm.enumType

/-- Two messages that are compared: of one name, at one place of two versions. -/
inductive Compared : List DescriptorProto → List DescriptorProto → DescriptorProto →
    DescriptorProto → Prop where
  | here {old new : List DescriptorProto} {om nm : DescriptorProto} (member : nm ∈ new)
      (found : counterpart (fun m => m.name) old nm = some om) : Compared old new om nm
  | nested {old new : List DescriptorProto} {om nm on nn : DescriptorProto} (member : nm ∈ new)
      (found : counterpart (fun m => m.name) old nm = some om)
      (deeper : Compared om.nestedType nm.nestedType on nn) : Compared old new on nn

/-- The range is not written backwards; a stop of 0 is that of a single number. -/
def Forward (start stop : Int32) : Prop := stop = 0 ∨ start.toInt ≤ stop.toInt

/-- A range of the list is not written backwards, or both its bounds are inside another one. -/
def ForwardOrInside {ρ : Type} (start stop : ρ → Int32) (ranges : List ρ) (r : ρ) : Prop :=
  Forward (start r) (stop r) ∨ ∃ s ∈ ranges, stop s ≠ 0 ∧ (start s).toInt ≤ (stop r).toInt ∧
    (start r).toInt ≤ (stop s).toInt

/-- What a message needs to agree with itself: ranges that are written forward, fields that agree
with the last of their number, and enums with the first of their name. -/
structure ItselfSame (m : DescriptorProto) : Prop where
  fields : ∀ nf ∈ m.field, ∀ of, oldByNum m (fieldNumber nf) = some of → FieldSame of nf
  reserved : ∀ r ∈ m.reservedRange,
    ForwardOrInside (fun s => s.start) (fun s => s.stop) m.reservedRange r
  extensions : ∀ r ∈ m.extensionRange,
    ForwardOrInside (fun s => s.start) (fun s => s.stop) m.extensionRange r
  enums : ∀ ne ∈ m.enumType, ∀ oe, counterpart (fun e => e.name) m.enumType ne = some oe →
    NumbersSame oe ne

/-- What a file needs to agree with itself: each message does, and two messages, enums, services or
methods of one name in one scope agree with one another. -/
structure SelfAgreeing (d : FileDescriptorProto) : Prop where
  itself : ∀ m, Compared d.messageType d.messageType m m → ItselfSame m
  twins : ∀ om nm, Compared d.messageType d.messageType om nm → om ≠ nm → PairSame om nm
  enums : ∀ ne ∈ d.enumType, ∀ oe, counterpart (fun e => e.name) d.enumType ne = some oe →
    NumbersSame oe ne
  services : ∀ ns ∈ d.service, ∀ os, counterpart (fun s => s.name) d.service ns = some os →
    Unaltered (fun m => m.name) SameMethod os.method ns.method

/-- The descriptor of a file that compiles without errors, alone or in a set. -/
def CompiledSomehow (displayFloat : UInt64 → String) (d : FileDescriptorProto) : Prop :=
  (∃ f, hasErrors (compile displayFloat f).2 = false ∧ d = (compile displayFloat f).1) ∨
    Compiled displayFloat d

end Statement

section Reports

variable {α κ : Type} [DecidableEq κ] {key : α → κ} {old new : List α}

private theorem flatMap_silent {items : List α} {report : α → Report} :
    items.flatMap report = [] ↔ ∀ item ∈ items, report item = [] := List.flatMap_eq_nil_iff

private theorem unless_silent {kept : Prop} [Decidable kept] {finding : Finding} :
    (if kept then [] else [finding]) = [] ↔ kept := by
  split <;> simp_all

private theorem differ_silent {β : Type} [DecidableEq β] {a b : β} {finding : Finding} :
    (if a ≠ b then [finding] else []) = [] ↔ a = b := by
  split <;> simp_all

/-- A comparison of keyed lists that reports what is new, what differs and what is lost. -/
private theorem unaltered_silent {report : α → Report} {Same : α → α → Prop} {lost : α → Finding}
    (added : ∀ n, counterpart key old n = none → report n ≠ [])
    (compared : ∀ n o, counterpart key old n = some o → (report n = [] ↔ Same o n)) :
    (new.flatMap report ++ old.flatMap fun o =>
        if new.any fun n => key n = key o then [] else [lost o]) = [] ↔
      Unaltered key Same old new := by
  rw [List.append_eq_nil_iff, flatMap_silent, flatMap_silent]
  simp only [unless_silent, List.any_eq_true, decide_eq_true_eq]
  constructor
  · rintro ⟨each, present⟩
    refine ⟨fun n member => ?_, present⟩
    cases found : counterpart key old n with
    | none => exact absurd (each n member) (added n found)
    | some o => exact ⟨o, rfl, (compared n o found).mp (each n member)⟩
  · rintro ⟨same, present⟩
    refine ⟨fun n member => ?_, present⟩
    obtain ⟨o, found, agrees⟩ := same n member
    exact (compared n o found).mpr agrees

end Reports

section Fields

private theorem jsonNameFindings_silent {msg name : String} {a b : Option String} :
    jsonNameFindings msg name a b = [] ↔ ∀ x, a = some x → b = some x := by
  cases a with
  | none => simp [jsonNameFindings]
  | some x =>
    cases b with
    | none => simp [jsonNameFindings]
    | some y =>
      rw [jsonNameFindings, differ_silent]
      simp [eq_comm]

private theorem checkFieldCompat_silent {msg : String} {of nf : FieldDescriptorProto}
    (named : of.name.getD "" = nf.name.getD "") :
    checkFieldCompat msg of nf = [] ↔ FieldSame of nf := by
  simp only [checkFieldCompat, List.append_eq_nil_iff, differ_silent, jsonNameFindings_silent]
  constructor
  · rintro ⟨⟨⟨⟨type, label⟩, typeName⟩, json⟩, default⟩
    exact ⟨⟨named, type, label, typeName⟩, json, default⟩
  · rintro ⟨⟨_, type, label, typeName⟩, json, default⟩
    exact ⟨⟨⟨⟨type, label⟩, typeName⟩, json⟩, default⟩

private theorem lintNewField_silent {old : DescriptorProto} {msg : String}
    {nf : FieldDescriptorProto} : lintNewField old msg nf = [] ↔
      ∃ of, oldByNum old (fieldNumber nf) = some of ∧ FieldSame of nf := by
  unfold lintNewField
  dsimp only
  cases found : oldByNum old (fieldNumber nf) with
  | none => simp
  | some of =>
    dsimp only
    by_cases named : of.name.getD "" = nf.name.getD ""
    · rw [if_neg (not_not_intro named), checkFieldCompat_silent named]
      simp
    · rw [if_pos named]
      refine iff_of_false (by simp) ?_
      rintro ⟨_, same, declared, _⟩
      obtain rfl := Option.some.inj same
      exact named declared.name

private theorem lintOldField_silent {new : DescriptorProto} {msg : String}
    {of : FieldDescriptorProto} :
    lintOldField new msg of = [] ↔ hasNumber new (fieldNumber of) = true := by
  unfold lintOldField
  dsimp only
  by_cases has : hasNumber new (fieldNumber of) = true
  · rw [if_pos has]
    exact iff_of_true rfl has
  · rw [if_neg has]
    refine iff_of_false ?_ has
    split <;> simp

end Fields

section Parts

private theorem checkReservedAndExtensions_silent {msg : String} {om nm : DescriptorProto} :
    checkReservedAndExtensions msg om nm = [] ↔ ReservationsKept om nm ∧
      ∀ oer ∈ om.extensionRange, ∃ ner ∈ nm.extensionRange,
        rangeCoversRange ner.start ner.stop oer.start oer.stop = true := by
  rw [checkReservedAndExtensions, List.append_eq_nil_iff, List.append_eq_nil_iff, flatMap_silent,
    flatMap_silent, flatMap_silent]
  simp only [unless_silent, List.any_eq_true, List.contains_iff_mem]
  constructor
  · rintro ⟨⟨ranges, names⟩, extensions⟩
    exact ⟨⟨ranges, names⟩, extensions⟩
  · rintro ⟨⟨ranges, names⟩, extensions⟩
    exact ⟨⟨ranges, names⟩, extensions⟩

private theorem lintEnumValues_silent {name : String} {oe ne : EnumDescriptorProto} :
    lintEnumValues name oe ne = [] ↔ NumbersSame oe ne := by
  unfold lintEnumValues NumbersSame ValuesKept
  dsimp only
  rw [List.append_eq_nil_iff, flatMap_silent, flatMap_silent]
  simp only [unless_silent, List.any_eq_true, decide_eq_true_eq]

private theorem lintEnums_silent {old new : List EnumDescriptorProto} {pathPrefix : String} :
    lintEnums old new pathPrefix = [] ↔ Unaltered (fun e => e.name) NumbersSame old new := by
  refine unaltered_silent (fun ne none => ?_) fun ne oe found => ?_
  · simp [none]
  · simp only [found, lintEnumValues_silent]

private theorem checkMethodCompat_silent {service : String} {om nm : MethodDescriptorProto} :
    checkMethodCompat service nm om = [] ↔ SameMethod om nm := by
  unfold checkMethodCompat
  dsimp only
  rw [List.append_eq_nil_iff, List.append_eq_nil_iff, differ_silent, differ_silent]
  constructor
  · rintro ⟨⟨input, output⟩, streaming⟩
    by_cases differs : om.clientStreaming ≠ nm.clientStreaming ∨
        om.serverStreaming ≠ nm.serverStreaming
    · simp [differs] at streaming
    · exact ⟨input, output, Decidable.not_not.mp fun other => differs (.inl other),
        Decidable.not_not.mp fun other => differs (.inr other)⟩
  · rintro ⟨input, output, client, server⟩
    simp [input, output, client, server]

private theorem lintServices_silent {old new : List ServiceDescriptorProto} :
    lintServices old new = [] ↔ Unaltered (fun s => s.name)
      (fun os ns => Unaltered (fun m => m.name) SameMethod os.method ns.method) old new := by
  refine unaltered_silent (fun ns none => ?_) fun ns os found => ?_
  · simp [none]
  · simp only [found]
    refine unaltered_silent (fun nm none => ?_) fun nm om found => ?_
    · simp [none]
    · simp only [found, checkMethodCompat_silent]

end Parts

section Messages

/-- What holds of every pair that is compared holds of the pairs here, and of those in them. -/
private theorem compared_iff {old new : List DescriptorProto}
    {Holds : DescriptorProto → DescriptorProto → Prop} :
    (∀ om nm, Compared old new om nm → Holds om nm) ↔
      ∀ nm ∈ new, ∀ om, counterpart (fun m => m.name) old nm = some om →
        Holds om nm ∧ ∀ on nn, Compared om.nestedType nm.nestedType on nn → Holds on nn := by
  constructor
  · intro each nm member om found
    exact ⟨each om nm (.here member found),
      fun on nn deeper => each on nn (.nested member found deeper)⟩
  · intro each om nm compared
    cases compared with
    | here member found => exact (each nm member om found).1
    | nested member found deeper => exact (each _ member _ found).2 om nm deeper

private theorem lintMessages_unaltered {old new : List DescriptorProto} {pathPrefix : String} :
    lintMessages old new pathPrefix = [] ↔
      Unaltered (fun m => m.name) (fun om nm => comparePair pathPrefix om nm = []) old new := by
  rw [lintMessages, lintNewMessages_eq, removedMessages]
  refine unaltered_silent (fun nm none => ?_) fun nm om found => ?_
  · rw [lintMessage_eq, none]
    simp
  · rw [lintMessage_eq, found]

/-- Nothing is found in two messages exactly if all pairs in them are the same. -/
private theorem comparePair_silent {pathPrefix : String} {om nm : DescriptorProto} :
    comparePair pathPrefix om nm = [] ↔
      PairSame om nm ∧ ∀ on nn, Compared om.nestedType nm.nestedType on nn → PairSame on nn := by
  induction nm using DescriptorProto.induction generalizing om pathPrefix with
  | step nm ih =>
    have nested : lintMessages om.nestedType nm.nestedType (pathPrefix ++ nm.name.getD "" ++ ".") = [] ↔
        Unaltered (fun m => m.name) (fun _ _ => True) om.nestedType nm.nestedType ∧
          ∀ on nn, Compared om.nestedType nm.nestedType on nn → PairSame on nn := by
      rw [lintMessages_unaltered, unaltered_iff, compared_iff]
      exact and_congr_right fun _ => forall₂_congr fun nn member => forall₂_congr fun on _ =>
        ih nn member
    unfold comparePair
    dsimp only
    rw [List.append_eq_nil_iff, List.append_eq_nil_iff, List.append_eq_nil_iff, nested,
      lintMessageFields, List.append_eq_nil_iff, flatMap_silent, flatMap_silent,
      checkReservedAndExtensions_silent, lintEnums_silent]
    simp only [lintNewField_silent, lintOldField_silent]
    constructor
    · rintro ⟨⟨⟨⟨fields, numbers⟩, reserved, extensions⟩, names, below⟩, enums⟩
      exact ⟨⟨fields, numbers, reserved, extensions, names, enums⟩, below⟩
    · rintro ⟨⟨fields, numbers, reserved, extensions, names, enums⟩, below⟩
      exact ⟨⟨⟨⟨fields, numbers⟩, reserved, extensions⟩, names, below⟩, enums⟩

private theorem lintMessages_silent {old new : List DescriptorProto} {pathPrefix : String} :
    lintMessages old new pathPrefix = [] ↔
      Unaltered (fun m => m.name) (fun _ _ => True) old new ∧
        ∀ om nm, Compared old new om nm → PairSame om nm := by
  rw [lintMessages_unaltered, unaltered_iff, compared_iff]
  exact and_congr_right fun _ => forall₂_congr fun nm _ => forall₂_congr fun om _ =>
    comparePair_silent

end Messages

/-- A comparison finds nothing exactly if the package, the names and all pairs are the same. -/
theorem lint_silent_iff {old new : FileDescriptorProto} : lint old new = [] ↔
    old.package.getD "" = new.package.getD "" ∧
      (Unaltered (fun m => m.name) (fun _ _ => True) old.messageType new.messageType ∧
        ∀ om nm, Compared old.messageType new.messageType om nm → PairSame om nm) ∧
      Unaltered (fun e => e.name) NumbersSame old.enumType new.enumType ∧
      Unaltered (fun s => s.name)
        (fun os ns => Unaltered (fun m => m.name) SameMethod os.method ns.method)
        old.service new.service := by
  rw [lint, List.append_eq_nil_iff, List.append_eq_nil_iff, List.append_eq_nil_iff,
    lintMessages_silent, lintEnums_silent, lintServices_silent]
  unfold lintPackage
  dsimp only
  rw [differ_silent]
  simp only [and_assoc]

section Itself

/-- A range covers itself exactly if it is not written backwards. -/
private theorem coversItself_iff {start stop : Int32} :
    rangeCoversRange start stop start stop = true ↔ Forward start stop := by
  rw [rangeCoversRange, Bool.and_eq_true]
  unfold Forward
  by_cases single : stop = 0
  · rw [if_pos single, rangeCovers_iff]
    exact iff_of_true ⟨⟨Int.le_refl _, .inl ⟨single, rfl⟩⟩, Int.le_refl _, .inl ⟨single, rfl⟩⟩
      (.inl single)
  · rw [if_neg single, rangeCovers_iff, rangeCovers_iff]
    constructor
    · rintro ⟨_, forward, _⟩
      exact .inr forward
    · rintro (zero | forward)
      · exact absurd zero single
      · exact ⟨⟨Int.le_refl _, .inr ⟨single, forward⟩⟩, forward, .inr ⟨single, Int.le_refl _⟩⟩

/-- A range is covered by the list it stands in. -/
private theorem coveredByOwn_iff {ρ : Type} {start stop : ρ → Int32} {ranges : List ρ} {r : ρ}
    (member : r ∈ ranges) :
    (∃ s ∈ ranges, rangeCoversRange (start s) (stop s) (start r) (stop r) = true) ↔
      ForwardOrInside start stop ranges r := by
  unfold ForwardOrInside
  by_cases forward : Forward (start r) (stop r)
  · exact iff_of_true ⟨r, member, coversItself_iff.mpr forward⟩ (.inl forward)
  · rw [or_iff_right forward]
    unfold Forward at forward
    have proper : stop r ≠ 0 := fun zero => forward (.inl zero)
    have backward : (stop r).toInt < (start r).toInt :=
      Int.not_le.mp fun low => forward (.inr low)
    refine exists_congr fun s => and_congr_right fun _ => ?_
    rw [rangeCoversRange, Bool.and_eq_true, if_neg proper, rangeCovers_iff, rangeCovers_iff]
    constructor
    · rintro ⟨⟨_, single | ⟨whole, high⟩⟩, low, single' | ⟨_, _⟩⟩
      · have same := congrArg Int32.toInt (single.2.symm.trans single'.2)
        omega
      · exact absurd single.1 (by assumption)
      · exact absurd single'.1 whole
      · exact ⟨whole, low, high⟩
    · rintro ⟨whole, low, high⟩
      exact ⟨⟨by omega, .inr ⟨whole, high⟩⟩, low, .inr ⟨whole, by omega⟩⟩

private theorem pairSame_self {m : DescriptorProto} (numbered : Numbered m) :
    PairSame m m ↔ ItselfSame m := by
  have reserved : ReservationsKept m m ↔ ∀ r ∈ m.reservedRange,
      ForwardOrInside (fun s => s.start) (fun s => s.stop) m.reservedRange r := by
    have covered := fun r => @coveredByOwn_iff ReservedRange (fun s => s.start) (fun s => s.stop)
      m.reservedRange r
    constructor
    · intro kept r member
      exact (covered r member).mp (kept.ranges r member)
    · intro each
      exact ⟨fun r member => (covered r member).mpr (each r member), fun name member => member⟩
  have extensions : (∀ oer ∈ m.extensionRange, ∃ ner ∈ m.extensionRange,
      rangeCoversRange ner.start ner.stop oer.start oer.stop = true) ↔ ∀ r ∈ m.extensionRange,
        ForwardOrInside (fun s => s.start) (fun s => s.stop) m.extensionRange r :=
    forall₂_congr fun r member => @coveredByOwn_iff ExtensionRange (fun s => s.start)
      (fun s => s.stop) m.extensionRange r member
  have last : ∀ nf ∈ m.field, ∃ of, oldByNum m (fieldNumber nf) = some of := fun nf member =>
    oldByNum_of_hasNumber (hasNumber_of_mem numbered member)
  constructor
  · rintro ⟨fields, _, kept, covered, _, enums⟩
    refine ⟨fun nf member of found => ?_, reserved.mp kept, extensions.mp covered,
      unaltered_self.mp enums⟩
    obtain ⟨of', found', same⟩ := fields nf member
    rw [found'] at found
    exact Option.some.inj found ▸ same
  · rintro ⟨fields, kept, covered, enums⟩
    refine ⟨fun nf member => ?_, fun of member => hasNumber_of_mem numbered member,
      reserved.mpr kept, extensions.mpr covered, unaltered_self.mpr fun _ _ _ _ => trivial,
      unaltered_self.mpr enums⟩
    obtain ⟨of, found⟩ := last nf member
    exact ⟨of, found, fields nf member of found⟩

private theorem CompiledSomehow.numbered {displayFloat : UInt64 → String}
    {d : FileDescriptorProto} (compiled : CompiledSomehow displayFloat d) :
    AllNumbered d.messageType := by
  intro m member
  rcases compiled with ⟨f, silent, rfl⟩ | compiled
  · simp only [compile, hasErrors_append, Bool.or_eq_false_iff, FileContext.convertMessages_eq, each,
      hasErrors_flatMap] at silent
    simp only [compile, FileContext.convertMessages_eq, each] at member
    obtain ⟨source, inside, rfl⟩ := List.mem_map.mp member
    exact ⟨"", convertMessage_numbered (silent.1.2 source inside)⟩
  · exact ⟨_, fun entry inside =>
      compiled.numbered entry (List.mem_flatMap.mpr ⟨m, member, inside⟩)⟩

/-- Both messages of a pair are numbered if the lists are. -/
private theorem Compared.numbered {old new : List DescriptorProto} {om nm : DescriptorProto}
    (compared : Compared old new om nm) (numbered : AllNumbered new) : Numbered nm := by
  induction compared with
  | here member _ => exact (numbered.here member).1
  | nested member _ _ ih => exact ih (numbered.here member).2

end Itself

/-- Nothing is found in a comparison of a compiled file with itself if and only if each message
agrees with itself, and so do two declarations of one name in one scope. -/
theorem lint_reflexive_iff (displayFloat : UInt64 → String) (d : FileDescriptorProto)
    (compiled : CompiledSomehow displayFloat d) : lint d d = [] ↔ SelfAgreeing d := by
  have numbered := compiled.numbered
  rw [lint_silent_iff]
  constructor
  · rintro ⟨_, ⟨_, pairs⟩, enums, services⟩
    refine ⟨fun m compared => ?_, fun om nm compared _ => pairs om nm compared,
      unaltered_self.mp enums, unaltered_self.mp services⟩
    exact (pairSame_self (compared.numbered numbered)).mp (pairs m m compared)
  · rintro ⟨itself, twins, enums, services⟩
    refine ⟨rfl, ⟨unaltered_self.mpr fun _ _ _ _ => trivial, fun om nm compared => ?_⟩,
      unaltered_self.mpr enums, unaltered_self.mpr services⟩
    by_cases same : om = nm
    · subst same
      exact (pairSame_self (compared.numbered numbered)).mpr (itself om compared)
    · exact twins om nm compared same

section Backwards

/-- `message M { reserved 4 to 2; }` -/
def backward : Language.File := versionOf { emptyMessage "M" with
  reservedRanges := [⟨4, some 2⟩] }

/-- `message M { reserved 2 to 4; }` -/
def forward : Language.File := versionOf { emptyMessage "M" with
  reservedRanges := [⟨2, some 4⟩] }

theorem lint_reflexive_forward : lint (compiledAlone forward) (compiledAlone forward) = [] ↔
    SelfAgreeing (compiledAlone forward) :=
  lint_reflexive_iff (fun _ => "") (compiledAlone forward)
    (.inr (compiled_alone (by decide +kernel)))

/-- A reserved range that is written backwards is reported as narrowed by the same file. -/
theorem not_lint_reflexive : ¬ ∀ (displayFloat : UInt64 → String) (f : Language.File),
    hasErrors (compile displayFloat f).2 = false →
      lint (compile displayFloat f).1 (compile displayFloat f).1 = [] := by
  intro reflexive
  have silent := reflexive (fun _ => "") backward (by decide +kernel)
  have found : (lint (compile (fun _ => "") backward).1
      (compile (fun _ => "") backward).1).isEmpty = false := by decide +kernel
  rw [silent] at found
  cases found

end Backwards

end TptProto.Lint
