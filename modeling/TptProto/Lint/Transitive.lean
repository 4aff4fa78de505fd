import TptProto.Compiler.Restrictions
import TptProto.Compiler.Unique
import TptProto.Lint.Rules

/-! Two compatible steps and the step from their start to their end. -/

namespace TptProto.Lint

open TptProto.Foundation TptProto.Descriptor TptProto.Compiler

section Statement

/-- The messages of one name at one place of three versions. -/
inductive Versions : List DescriptorProto → List DescriptorProto → List DescriptorProto →
    DescriptorProto → DescriptorProto → DescriptorProto → Prop where
  | here {a b c : List DescriptorProto} {am bm cm : DescriptorProto} (new : cm ∈ c)
      (old : counterpart (fun m => m.name) a cm = some am)
      (between : counterpart (fun m => m.name) b cm = some bm) : Versions a b c am bm cm
  | nested {a b c : List DescriptorProto} {am bm cm an bn cn : DescriptorProto} (new : cm ∈ c)
      (old : counterpart (fun m => m.name) a cm = some am)
      (between : counterpart (fun m => m.name) b cm = some bm)
      (deeper : Versions am.nestedType bm.nestedType cm.nestedType an bn cn) :
      Versions a b c an bn cn

/-- A message's fields come through the version between: no number is dropped there and then
used for another field, no name in JSON is missing there and then another, and a second field
of a number that is dropped last is reserved. -/
structure FieldsCarried (a b c : DescriptorProto) : Prop where
  reused : ∀ nf ∈ c.field, ∀ of, oldByNum a (fieldNumber nf) = some of →
    hasNumber b (fieldNumber nf) = false → SameDeclaration of nf
  renamed : ∀ nf ∈ c.field, ∀ of, oldByNum a (fieldNumber nf) = some of →
    (∀ bf, oldByNum b (fieldNumber nf) = some bf → bf.jsonName = none) → SameJsonName of nf
  dropped : ∀ of ∈ a.field, oldByNum a (fieldNumber of) ≠ some of →
    hasNumber b (fieldNumber of) = true → hasNumber c (fieldNumber of) = false → Reserves c of

end Statement

section Ranges

theorem rangeCovers_iff {start stop num : Int32} : rangeCovers start stop num = true ↔
    start.toInt ≤ num.toInt ∧ (stop = 0 ∧ start = num ∨ stop ≠ 0 ∧ num.toInt ≤ stop.toInt) := by
  unfold rangeCovers
  by_cases below : num < start
  · have less := Int32.lt_iff_toInt_lt.mp below
    rw [if_pos below]
    exact iff_of_false Bool.false_ne_true fun covers => absurd covers.1 (by omega)
  · have reached : start.toInt ≤ num.toInt :=
      Int.not_lt.mp fun less => below (Int32.lt_iff_toInt_lt.mpr less)
    by_cases single : stop = 0
    · simp [below, single, reached]
    · simp [below, single, reached, Int32.le_iff_toInt_le]

/-- A range that covers another covers every number the other does. -/
theorem covers_of_coversRange {startA stopA startB stopB num : Int32}
    (outer : rangeCoversRange startA stopA startB stopB = true)
    (inner : rangeCovers startB stopB num = true) : rangeCovers startA stopA num = true := by
  simp only [rangeCoversRange, Bool.and_eq_true, rangeCovers_iff] at outer
  obtain ⟨⟨low, first⟩, _, last⟩ := outer
  obtain ⟨above, inside⟩ := rangeCovers_iff.mp inner
  refine rangeCovers_iff.mpr ⟨by omega, ?_⟩
  rcases inside with ⟨single, rfl⟩ | ⟨proper, below⟩
  · exact first
  · rw [if_neg proper] at last
    rcases first with ⟨zero, start⟩ | ⟨stop, _⟩
    · rcases last with ⟨_, same⟩ | ⟨stop, _⟩
      · refine .inl ⟨zero, Int32.toInt_inj.mp ?_⟩
        have ends := congrArg Int32.toInt same
        have starts := congrArg Int32.toInt start
        omega
      · exact absurd zero stop
    · rcases last with ⟨zero, _⟩ | ⟨_, within⟩
      · exact absurd zero stop
      · exact .inr ⟨stop, by omega⟩

theorem coversRange_trans {startA stopA startB stopB startC stopC : Int32}
    (outer : rangeCoversRange startA stopA startB stopB = true)
    (inner : rangeCoversRange startB stopB startC stopC = true) :
    rangeCoversRange startA stopA startC stopC = true := by
  rw [rangeCoversRange, Bool.and_eq_true] at inner ⊢
  exact ⟨covers_of_coversRange outer inner.1, covers_of_coversRange outer inner.2⟩

/-- Of a positive number, the reserved ranges say what they cover. -/
theorem reservesNumber_iff {m : DescriptorProto} {num : Int32} (positive : 1 ≤ num.toInt) :
    reservesNumber m num = true ↔
      ∃ r ∈ m.reservedRange, rangeCovers r.start r.stop num = true := by
  have zero : (0 : Int32).toInt = 0 := rfl
  simp only [reservesNumber, List.any_eq_true]
  refine exists_congr fun r => and_congr_right fun _ => ?_
  simp only [rangeCovers_iff, Bool.and_eq_true, Bool.or_eq_true, decide_eq_true_eq,
    Int32.le_iff_toInt_le]
  refine and_congr_right fun _ => ?_
  constructor
  · rintro (single | below)
    · exact .inl single
    · refine .inr ⟨fun none => ?_, below⟩
      rw [none] at below
      omega
  · rintro (single | ⟨_, below⟩)
    · exact .inl single
    · exact .inr below

theorem ReservationsKept.trans {a b c : DescriptorProto} (first : ReservationsKept a b)
    (second : ReservationsKept b c) : ReservationsKept a c := by
  refine ⟨fun r member => ?_, fun name member => second.names name (first.names name member)⟩
  obtain ⟨s, inside, inner⟩ := first.ranges r member
  obtain ⟨t, last, outer⟩ := second.ranges s inside
  exact ⟨t, last, coversRange_trans outer inner⟩

theorem ReservationsKept.reserves {b c : DescriptorProto} (kept : ReservationsKept b c)
    {f : FieldDescriptorProto} (positive : 1 ≤ (fieldNumber f).toInt) (reserved : Reserves b f) :
    Reserves c f := by
  rcases reserved with number | name
  · obtain ⟨r, member, covers⟩ := (reservesNumber_iff positive).mp number
    obtain ⟨s, inside, outer⟩ := kept.ranges r member
    exact .inl ((reservesNumber_iff positive).mpr ⟨s, inside, covers_of_coversRange outer covers⟩)
  · exact .inr (kept.names _ name)

end Ranges

section Fields

theorem SameDeclaration.trans {a b c : FieldDescriptorProto} (first : SameDeclaration a b)
    (second : SameDeclaration b c) : SameDeclaration a c :=
  ⟨first.name.trans second.name, first.type.trans second.type, first.label.trans second.label,
    first.typeName.trans second.typeName⟩

theorem SameMethod.trans {a b c : MethodDescriptorProto} (first : SameMethod a b)
    (second : SameMethod b c) : SameMethod a c :=
  ⟨first.input.trans second.input, first.output.trans second.output,
    first.clientStreaming.trans second.clientStreaming,
    first.serverStreaming.trans second.serverStreaming⟩

theorem ValuesKept.trans {a b c : EnumDescriptorProto} (first : ValuesKept a b)
    (second : ValuesKept b c) : ValuesKept a c := by
  intro v member
  obtain ⟨w, inside, same⟩ := first v member
  obtain ⟨x, last, same'⟩ := second w inside
  exact ⟨x, last, same'.trans same⟩

theorem oldByNum_mem {m : DescriptorProto} {num : Int32} {f : FieldDescriptorProto}
    (found : oldByNum m num = some f) : f ∈ m.field ∧ fieldNumber f = num :=
  ⟨List.mem_reverse.mp (List.mem_of_find?_eq_some found), by simpa using List.find?_some found⟩

theorem oldByNum_of_hasNumber {m : DescriptorProto} {num : Int32} (has : hasNumber m num = true) :
    ∃ f, oldByNum m num = some f := by
  obtain ⟨f, member, number⟩ := List.any_eq_true.mp has
  refine Option.isSome_iff_exists.mp (List.find?_isSome.mpr ⟨f, List.mem_reverse.mpr member, ?_⟩)
  simp [fieldNumber, of_decide_eq_true number]

theorem hasNumber_of_mem {m : DescriptorProto} (numbered : Numbered m) {f : FieldDescriptorProto}
    (member : f ∈ m.field) : hasNumber m (fieldNumber f) = true := by
  obtain ⟨n, number, _⟩ := numbered.field member
  exact List.any_eq_true.mpr ⟨f, member, by simp [fieldNumber, number]⟩

variable {a b c : DescriptorProto}

private theorem sameJsonName_of {of bf nf : FieldDescriptorProto} (first : SameJsonName of bf)
    (second : SameJsonName bf nf) (given : bf.jsonName ≠ none) : SameJsonName of nf := by
  obtain ⟨name, between⟩ := Option.ne_none_iff_exists'.mp given
  intro x old y new
  exact (first x old name between).trans (second name between y new)

/-- The fields of the first version are kept in the last exactly if they are carried. -/
theorem fieldsKept_trans_iff (numberedA : Numbered a)
    (first : FieldsKept a b) (second : FieldsKept b c) (reserved : ReservationsKept b c) :
    FieldsKept a c ↔ FieldsCarried a b c := by
  constructor
  · rintro ⟨same, removed⟩
    refine ⟨fun nf member of old _ => (same nf member of old).1,
      fun nf member of old _ => (same nf member of old).2, fun of member _ _ gone => ?_⟩
    exact (removed of member).resolve_left (by rw [gone]; exact Bool.false_ne_true)
  · rintro ⟨reused, renamed, dropped⟩
    constructor
    · intro nf member of old
      cases between : oldByNum b (fieldNumber nf) with
      | none =>
        have gone : hasNumber b (fieldNumber nf) = false := by
          refine Bool.eq_false_iff.mpr fun has => ?_
          obtain ⟨bf, found⟩ := oldByNum_of_hasNumber has
          cases between.symm.trans found
        exact ⟨reused nf member of old gone, renamed nf member of old fun bf found =>
          by cases between.symm.trans found⟩
      | some bf =>
        obtain ⟨inside, number⟩ := oldByNum_mem between
        obtain ⟨declared, json⟩ := first.same bf inside of (number ▸ old)
        obtain ⟨declared', json'⟩ := second.same nf member bf between
        refine ⟨declared.trans declared', ?_⟩
        by_cases given : bf.jsonName = none
        · refine renamed nf member of old fun other found => ?_
          cases between.symm.trans found
          exact given
        · exact sameJsonName_of json json' given
    · intro of member
      obtain ⟨n, number, positive, _⟩ := numberedA.field member
      have one : 1 ≤ (fieldNumber of).toInt := by simpa [fieldNumber, number] using positive
      rcases first.removed of member with has | reserves
      · by_cases has' : hasNumber c (fieldNumber of) = true
        · exact .inl has'
        · refine .inr ?_
          by_cases last : oldByNum a (fieldNumber of) = some of
          · obtain ⟨bf, between⟩ := oldByNum_of_hasNumber has
            obtain ⟨inside, same⟩ := oldByNum_mem between
            have declared := (first.same bf inside of (same ▸ last)).1
            have kept := (second.removed bf inside).resolve_left (same ▸ has')
            exact kept.imp (fun numbered => same ▸ numbered) fun named => declared.name ▸ named
          · exact dropped of member last has (Bool.eq_false_iff.mpr has')
      · exact .inr (reserved.reserves one reserves)

end Fields

section Messages

/-- Every message in the list is numbered, at any depth. -/
def AllNumbered (ms : List DescriptorProto) : Prop :=
  ∀ m ∈ ms, ∃ scope, ∀ entry ∈ produced scope m, Numbered entry.2

theorem AllNumbered.here {ms : List DescriptorProto} (all : AllNumbered ms) {m : DescriptorProto}
    (member : m ∈ ms) : Numbered m ∧ AllNumbered m.nestedType := by
  obtain ⟨scope, numbered⟩ := all m member
  rw [produced_eq, List.forall_mem_cons] at numbered
  exact ⟨numbered.1, fun n inside => ⟨_, fun entry below =>
    numbered.2 entry (List.mem_flatMap.mpr ⟨n, inside, below⟩)⟩⟩

theorem versions_iff {a b c : List DescriptorProto} {Holds : DescriptorProto → DescriptorProto →
      DescriptorProto → Prop} :
    (∀ am bm cm, Versions a b c am bm cm → Holds am bm cm) ↔
      ∀ cm ∈ c, ∀ am, counterpart (fun m => m.name) a cm = some am →
        ∀ bm, counterpart (fun m => m.name) b cm = some bm →
          Holds am bm cm ∧ ∀ an bn cn,
            Versions am.nestedType bm.nestedType cm.nestedType an bn cn → Holds an bn cn := by
  constructor
  · intro each cm new am old bm between
    exact ⟨each am bm cm (.here new old between),
      fun an bn cn deeper => each an bn cn (.nested new old between deeper)⟩
  · intro each am bm cm versions
    cases versions with
    | here new old between => exact (each cm new am old bm between).1
    | nested new old between deeper => exact (each _ new _ old _ between).2 am bm cm deeper

/-- A message kept by both steps is kept from end to end exactly if its fields and those of
the messages in it are carried. -/
theorem comparePair_trans_iff {am bm cm : DescriptorProto} {first second whole : String}
    (numbered : Numbered am ∧ AllNumbered am.nestedType)
    (left : (comparePair first am bm).hasBreaking = false)
    (right : (comparePair second bm cm).hasBreaking = false) :
    (comparePair whole am cm).hasBreaking = false ↔
      FieldsCarried am bm cm ∧ ∀ an bn cn,
        Versions am.nestedType bm.nestedType cm.nestedType an bn cn → FieldsCarried an bn cn := by
  induction cm using DescriptorProto.induction generalizing am bm first second whole with
  | step cm ih =>
    obtain ⟨fields, reserved, nested, enums⟩ := comparePair_quiet.mp left
    obtain ⟨fields', reserved', nested', enums'⟩ := comparePair_quiet.mp right
    rw [lintMessages_quiet] at nested nested'
    rw [comparePair_quiet, fieldsKept_trans_iff numbered.1 fields fields' reserved',
      lintMessages_quiet, nested.trans_iff nested', versions_iff]
    refine and_congr_right fun _ => ?_
    constructor
    · rintro ⟨_, each, _⟩ cn new an old bn between
      obtain ⟨other, found, one, two⟩ := nested.middle nested' new old
      cases between.symm.trans found
      exact (ih cn new (numbered.2.here (counterpart_mem old)) one two).mp (each cn new an old bn between)
    · intro each
      refine ⟨reserved.trans reserved', fun cn new an old bn between => ?_,
        enums.trans enums' ValuesKept.trans⟩
      obtain ⟨other, found, one, two⟩ := nested.middle nested' new old
      cases between.symm.trans found
      exact (ih cn new (numbered.2.here (counterpart_mem old)) one two).mpr (each cn new an old bn between)

theorem lintMessages_trans_iff {a b c : List DescriptorProto} {first second whole : String}
    (numbered : AllNumbered a) (left : (lintMessages a b first).hasBreaking = false)
    (right : (lintMessages b c second).hasBreaking = false) :
    (lintMessages a c whole).hasBreaking = false ↔
      ∀ am bm cm, Versions a b c am bm cm → FieldsCarried am bm cm := by
  rw [lintMessages_quiet] at left right
  rw [lintMessages_quiet, left.trans_iff right, versions_iff]
  refine forall₂_congr fun cm new => forall₂_congr fun am old => forall₂_congr fun bm between => ?_
  obtain ⟨other, found, one, two⟩ := left.middle right new old
  cases between.symm.trans found
  exact comparePair_trans_iff (numbered.here (counterpart_mem old)) one two

end Messages

/-- Of compiled versions without a breaking finding from the first to the second and from the
second to the third, there is none from the first to the third exactly if the fields of every
message come through the second. -/
theorem compatible_trans_iff (displayFloat : UInt64 → String) (a b c : FileDescriptorProto)
    (compiledA : Compiled displayFloat a) (_compiledB : Compiled displayFloat b)
    (_compiledC : Compiled displayFloat c) (first : (lint a b).hasBreaking = false)
    (second : (lint b c).hasBreaking = false) :
    (lint a c).hasBreaking = false ↔
      ∀ am bm cm, Versions a.messageType b.messageType c.messageType am bm cm →
        FieldsCarried am bm cm := by
  obtain ⟨package, messages, enums, services⟩ := lint_quiet.mp first
  obtain ⟨package', messages', enums', services'⟩ := lint_quiet.mp second
  have numbered : AllNumbered a.messageType := fun m member => ⟨_, fun entry inside =>
    compiledA.numbered entry (List.mem_flatMap.mpr ⟨m, member, inside⟩)⟩
  rw [lint_quiet, lintMessages_trans_iff numbered messages messages']
  constructor
  · exact fun kept => kept.2.1
  · intro carried
    exact ⟨package.trans package', carried, enums.trans enums' ValuesKept.trans,
      services.trans services' fun left right => left.trans right SameMethod.trans⟩

section Reopened

/-- A file in proto3 with one message, `M`. -/
def versionOf (m : Language.Message) : Language.File where
  name := "m.proto"
  syntaxDecl := some ⟨{}, "proto3"⟩
  messages := [m]

/-- `message M { int32 x = 1; }` -/
def published : Language.File := versionOf { emptyMessage "M" with
  fields := [⟨{}, ⟨"x", {}⟩, 1, .scalar .int32, .singular, none, none, []⟩] }

/-- `message M { reserved "x"; }` -/
def withdrawn : Language.File := versionOf { emptyMessage "M" with
  reservedNames := [⟨"x", {}⟩] }

/-- `message M { reserved "x"; string y = 1; }` -/
def reopened : Language.File := versionOf { emptyMessage "M" with
  fields := [⟨{}, ⟨"y", {}⟩, 1, .scalar .string, .singular, none, none, []⟩]
  reservedNames := [⟨"x", {}⟩] }

/-- The descriptor a file alone compiles to. -/
def compiledAlone (f : Language.File) : FileDescriptorProto :=
  (resolvedFile (fun _ => "") [f] f).1

theorem compiled_alone {f : Language.File} (accepted : Accepted (fun _ => "") [f]) :
    Compiled (fun _ => "") (compiledAlone f) :=
  ⟨[f], accepted, by rw [compileSet_file]; exact List.mem_singleton_self _⟩

theorem compatible_trans_reopened :
    (lint (compiledAlone published) (compiledAlone reopened)).hasBreaking = false ↔
      ∀ am bm cm, Versions (compiledAlone published).messageType (compiledAlone withdrawn).messageType
        (compiledAlone reopened).messageType am bm cm → FieldsCarried am bm cm :=
  compatible_trans_iff (fun _ => "") (compiledAlone published) (compiledAlone withdrawn)
    (compiledAlone reopened) (compiled_alone (by decide +kernel)) (compiled_alone (by decide +kernel))
    (compiled_alone (by decide +kernel)) (by decide +kernel) (by decide +kernel)

theorem not_compatible_trans :
    ¬ ∀ (displayFloat : UInt64 → String) (a b c : FileDescriptorProto), Compiled displayFloat a →
      Compiled displayFloat b → Compiled displayFloat c → (lint a b).hasBreaking = false →
      (lint b c).hasBreaking = false → (lint a c).hasBreaking = false := by
  intro transitive
  have whole := transitive (fun _ => "") (compiledAlone published) (compiledAlone withdrawn)
    (compiledAlone reopened) (compiled_alone (by decide +kernel)) (compiled_alone (by decide +kernel))
    (compiled_alone (by decide +kernel)) (by decide +kernel) (by decide +kernel)
  have reused : (lint (compiledAlone published) (compiledAlone reopened)).hasBreaking = true := by
    decide +kernel
  rw [whole] at reused
  cases reused

end Reopened

end TptProto.Lint

/-! When the report that a message reserves less is right. The comparison looks for one new range
around each old one, which the new ranges may well cover together. -/

namespace TptProto.Lint

open TptProto.Descriptor

/-- The range contains the number. -/
def ReservedRange.Contains (r : ReservedRange) (num : Int) : Prop :=
  r.start.toInt ≤ num ∧ num ≤ r.stop.toInt

/-- Some range of the list contains the number. -/
def ReservedBy (ranges : List ReservedRange) (num : Int) : Prop :=
  ∃ r ∈ ranges, ReservedRange.Contains r num

/-- A number is reserved no longer. -/
def Loses (old new : List ReservedRange) : Prop :=
  ∃ num, ReservedBy old num ∧ ¬ ReservedBy new num

/-- Both bounds of every old range are in one new range. -/
def Enclosed (old new : List ReservedRange) : Prop :=
  ∀ orr ∈ old, ∃ nrr ∈ new, ReservedRange.Contains nrr orr.start.toInt ∧
    ReservedRange.Contains nrr orr.stop.toInt

def PositiveBounds (ranges : List ReservedRange) : Prop :=
  ∀ r ∈ ranges, 0 < r.start.toInt ∧ 0 < r.stop.toInt

def ReportsShrunk (msg : String) (old new : DescriptorProto) : Prop :=
  ∃ f ∈ checkReservedAndExtensions msg old new, f.code = "RESERVED_RANGE_SHRUNK"

instance (msg : String) (old new : DescriptorProto) : Decidable (ReportsShrunk msg old new) :=
  inferInstanceAs (Decidable (∃ f ∈ _, _))

private theorem positive_ne_zero {stop : Int32} (positive : 0 < stop.toInt) : stop ≠ 0 := by
  intro zero
  rw [zero] at positive
  cases positive

private theorem rangeCovers_positive {start stop num : Int32} (positive : 0 < stop.toInt) :
    rangeCovers start stop num = true ↔ start.toInt ≤ num.toInt ∧ num.toInt ≤ stop.toInt := by
  have proper := positive_ne_zero positive
  rw [rangeCovers_iff]
  refine and_congr_right fun _ => ?_
  constructor
  · rintro (⟨zero, _⟩ | ⟨_, below⟩)
    · exact absurd zero proper
    · exact below
  · intro below
    exact .inr ⟨proper, below⟩

private theorem coversRange_positive {outer inner : ReservedRange} (above : 0 < outer.stop.toInt)
    (below : 0 < inner.stop.toInt) :
    rangeCoversRange outer.start outer.stop inner.start inner.stop = true ↔
      ReservedRange.Contains outer inner.start.toInt ∧
        ReservedRange.Contains outer inner.stop.toInt := by
  rw [rangeCoversRange, Bool.and_eq_true, if_neg (positive_ne_zero below),
    rangeCovers_positive above, rangeCovers_positive above]
  rfl

/-- The report is made exactly if no new range covers some old one. -/
private theorem reportsShrunk_iff {msg : String} {old new : DescriptorProto} :
    ReportsShrunk msg old new ↔ ∃ orr ∈ old.reservedRange, ∀ nrr ∈ new.reservedRange,
      ¬ rangeCoversRange nrr.start nrr.stop orr.start orr.stop = true := by
  unfold ReportsShrunk checkReservedAndExtensions
  constructor
  · rintro ⟨f, member, code⟩
    rcases List.mem_append.mp member with shrunkOrName | extension
    · rcases List.mem_append.mp shrunkOrName with shrunk | name
      · obtain ⟨orr, inside, found⟩ := List.mem_flatMap.mp shrunk
        split at found
        · cases found
        · rename_i none
          exact ⟨orr, inside, by simpa using none⟩
      · obtain ⟨_, _, found⟩ := List.mem_flatMap.mp name
        split at found
        · cases found
        · rw [List.mem_singleton.mp found] at code
          exact absurd code (by simp)
    · obtain ⟨_, _, found⟩ := List.mem_flatMap.mp extension
      split at found
      · cases found
      · rw [List.mem_singleton.mp found] at code
        exact absurd code (by simp)
  · rintro ⟨orr, inside, none⟩
    refine ⟨?finding, List.mem_append_left _ (List.mem_append_left _
      (List.mem_flatMap.mpr ⟨orr, inside, ?made⟩)), ?code⟩
    case made =>
      rw [if_neg (by simpa using none)]
      exact List.mem_singleton_self _
    case code => rfl

private theorem not_reportsShrunk_iff {msg : String} {old new : DescriptorProto}
    (oldPositive : PositiveBounds old.reservedRange)
    (newPositive : PositiveBounds new.reservedRange) :
    ¬ ReportsShrunk msg old new ↔ Enclosed old.reservedRange new.reservedRange := by
  rw [reportsShrunk_iff]
  constructor
  · intro quiet orr inside
    refine Classical.byContradiction fun alone => quiet ⟨orr, inside, fun nrr member covers => ?_⟩
    exact alone ⟨nrr, member,
      (coversRange_positive (newPositive nrr member).2 (oldPositive orr inside).2).mp covers⟩
  · rintro enclosed ⟨orr, inside, none⟩
    obtain ⟨nrr, member, both⟩ := enclosed orr inside
    exact none nrr member
      ((coversRange_positive (newPositive nrr member).2 (oldPositive orr inside).2).mpr both)

/-- An interval around both bounds is around all between them. -/
private theorem Enclosed.keeps {old new : List ReservedRange} (enclosed : Enclosed old new) :
    ¬ Loses old new := by
  rintro ⟨num, ⟨orr, inside, above, below⟩, lost⟩
  obtain ⟨nrr, member, ⟨low, _⟩, _, high⟩ := enclosed orr inside
  exact lost ⟨nrr, member, Int.le_trans low above, Int.le_trans below high⟩

/-- Of ranges with positive bounds, the report that they shrank is right if and only if a number is
lost or one new range is around the bounds of each old one. -/
theorem reservedShrunk_exact_iff (msg : String) (old new : DescriptorProto)
    (oldPositive : PositiveBounds old.reservedRange)
    (newPositive : PositiveBounds new.reservedRange) :
    (ReportsShrunk msg old new ↔ Loses old.reservedRange new.reservedRange) ↔
      Loses old.reservedRange new.reservedRange ∨
        Enclosed old.reservedRange new.reservedRange := by
  have quiet : ¬ ReportsShrunk msg old new ↔ Enclosed old.reservedRange new.reservedRange :=
    not_reportsShrunk_iff oldPositive newPositive
  constructor
  · intro exact
    by_cases loses : Loses old.reservedRange new.reservedRange
    · exact .inl loses
    · exact .inr (quiet.mp fun reports => loses (exact.mp reports))
  · rintro (loses | enclosed)
    · refine ⟨fun _ => loses, fun _ => Classical.byContradiction fun silent => ?_⟩
      exact (quiet.mp silent).keeps loses
    · exact iff_of_false (quiet.mpr enclosed) enclosed.keeps

/-- A message that reserves these ranges. -/
private def reserving (ranges : List ReservedRange) : DescriptorProto := { reservedRange := ranges }

/-- One range around the old one: nothing is reported and nothing is lost. -/
theorem reservedShrunk_exact_widened :
    ¬ ReportsShrunk "M" (reserving [⟨2, 5⟩]) (reserving [⟨1, 9⟩]) ∧
      ((ReportsShrunk "M" (reserving [⟨2, 5⟩]) (reserving [⟨1, 9⟩]) ↔
        Loses [⟨2, 5⟩] [⟨1, 9⟩]) ↔ Loses [⟨2, 5⟩] [⟨1, 9⟩] ∨ Enclosed [⟨2, 5⟩] [⟨1, 9⟩]) :=
  ⟨by decide, reservedShrunk_exact_iff "M" (reserving [⟨2, 5⟩]) (reserving [⟨1, 9⟩])
    (by unfold PositiveBounds; decide) (by unfold PositiveBounds; decide)⟩

/-- The numbers 1 to 10 reserved as 1 to 5 and 6 to 10: a report, though none is lost. -/
theorem reservedShrunk_split :
    PositiveBounds [⟨1, 10⟩] ∧ PositiveBounds [⟨1, 5⟩, ⟨6, 10⟩] ∧
      ReportsShrunk "M" (reserving [⟨1, 10⟩]) (reserving [⟨1, 5⟩, ⟨6, 10⟩]) ∧
      ¬ Loses [⟨1, 10⟩] [⟨1, 5⟩, ⟨6, 10⟩] := by
  refine ⟨by unfold PositiveBounds; decide, by unfold PositiveBounds; decide, by decide, ?_⟩
  rintro ⟨num, ⟨orr, inside, low, high⟩, lost⟩
  rw [List.mem_singleton.mp inside] at low high
  by_cases first : num ≤ 5
  · exact lost ⟨⟨1, 5⟩, by simp, low, first⟩
  · exact lost ⟨⟨6, 10⟩, by simp, show (6 : Int) ≤ num by omega, high⟩

end TptProto.Lint
