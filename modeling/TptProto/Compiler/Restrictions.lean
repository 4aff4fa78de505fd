import TptProto.Compiler.Unique
import TptProto.Lint.Lint
import Mathlib.Data.List.Forall2

/-! Which restrictions on numbers and names the compiled descriptors meet. Number ranges and
repeated names of plain fields and oneof members are checked; the other restrictions hold
as far as the source keeps them. -/

namespace TptProto.Compiler

open TptProto.Descriptor TptProto.Language TptProto.Lint

section Statement

def fieldNumbers (m : DescriptorProto) : List (Option Int32) := m.field.map fun f => f.number

def fieldNames (m : DescriptorProto) : List (Option String) := m.field.map fun f => f.name

/-- The restrictions on a message's numbers and names that every codec assumes. -/
structure SoundMessage (m : DescriptorProto) : Prop where
  distinct : (fieldNumbers m).Nodup
  inRange : ∀ number ∈ fieldNumbers m, ∃ n, number = some n ∧ 1 ≤ n.toInt ∧ n.toInt ≤ 536870911
  unreserved : ∀ n, some n ∈ fieldNumbers m → ∀ r ∈ m.reservedRange,
    rangeCovers r.start r.stop n = false
  allowed : ∀ name, some name ∈ fieldNames m → name ∉ m.reservedName
  named : (fieldNames m).Nodup

/-- The values of an enum's descriptor have the numbers written in the source. -/
def NumbersKept (e : Enum) (descriptor : EnumDescriptorProto) : Prop :=
  List.Forall₂ (fun (v : EnumValue) value =>
    ∃ n : Int32, value.number = some n ∧ n.toInt = v.number.toInt) e.values descriptor.value

/-- The enums of a file, those in messages first. -/
def sourceEnums (f : File) : List Enum :=
  (fileMessages f).flatMap (fun entry => entry.2.nestedEnums) ++ f.enums

def producedEnums (fd : FileDescriptorProto) : List EnumDescriptorProto :=
  (fileDescriptors fd).flatMap (fun entry => entry.2.enumType) ++ fd.enumType

/-- Every message a set of files compiles to is sound, and so are its enums' numbers. -/
def SoundSet (displayFloat : UInt64 → String) (files : List File) : Prop :=
  (∀ fd ∈ (compileSet displayFloat files).set.file, ∀ entry ∈ fileDescriptors fd,
    SoundMessage entry.2) ∧
  List.Forall₂ (fun f fd => List.Forall₂ NumbersKept (sourceEnums f) (producedEnums fd))
    files (compileSet displayFloat files).set.file

end Statement

section Source

def members (m : Message) : List Field := m.oneofs.flatMap fun o => o.fields

/-- The names and numbers of a message's oneof members, fields and map fields. -/
def written (m : Message) : List (String × Int64) :=
  (members m).map (fun f => (f.name.name, f.number)) ++
    m.fields.map (fun f => (f.name.name, f.number)) ++
    m.maps.map fun mf => (mf.name.name, mf.number)

/-- The restrictions that the compiler leaves to the source of a message. -/
structure Restricted (m : Message) : Prop where
  distinct : ((written m).map Prod.snd).Nodup
  unreserved : ∀ number ∈ (written m).map Prod.snd, ∀ r ∈ m.reservedRanges,
    rangeCovers (convertRange r).1 (convertRange r).2 number.toInt32 = false
  allowed : ∀ name ∈ (written m).map Prod.fst, name ∉ m.reservedNames.map fun n => n.name
  maps : (m.maps.map fun mf => mf.name.name).Nodup
  apart : ∀ mf ∈ m.maps, mf.name.name ∉ (members m ++ m.fields).map fun f => f.name.name

def FitsInt32 (n : Int64) : Prop := -2 ^ 31 ≤ n.toInt ∧ n.toInt < 2 ^ 31

theorem toInt_toInt32_iff {n : Int64} : n.toInt32.toInt = n.toInt ↔ FitsInt32 n := by
  rw [Int64.toInt_toInt32, FitsInt32, Int.bmod_def]
  omega

end Source

section Conversion

variable {cx : FileContext} {path : String}

theorem checkFieldNumber_accepts {number : Int64} {span : Span} :
    hasErrors (checkFieldNumber number span) = false ↔
      1 ≤ number.toInt ∧ number.toInt ≤ 536870911 := by
  unfold checkFieldNumber
  rw [hasErrors_append, Bool.or_eq_false_iff]
  have warned : hasErrors (if 19000 ≤ number.toInt ∧ number.toInt ≤ 19999 then
      [Diagnostic.warning .invalidFieldNumber
        ("field number " ++ toString number.toInt ++
          " is in the reserved implementation range 19000..=19999") (some span)]
    else []) = false := by
    split <;> rfl
  rw [warned]
  by_cases inside : 1 ≤ number.toInt ∧ number.toInt ≤ 536870911
  · simp [inside, hasErrors]
  · simp [inside, hasErrors, Diagnostic.error]

theorem hasErrors_flatMap {α : Type} {diagnostics : α → Diagnostics} {items : List α} :
    hasErrors (items.flatMap diagnostics) = false ↔
      ∀ item ∈ items, hasErrors (diagnostics item) = false := by
  simp [hasErrors, List.any_flatMap]

theorem convertOneofs_keys (index : Nat) (oneofs : List Oneof) :
    (cx.convertOneofs index oneofs).1.map (fun f => (f.name, f.number)) =
      (oneofs.flatMap fun o => o.fields).map fun f => (some f.name.name, some f.number.toInt32) := by
  induction oneofs generalizing index with
  | nil => rfl
  | cons o rest ih =>
    rw [FileContext.convertOneofs, List.map_append, ih, List.flatMap_cons, List.map_append]
    simp only [each, List.map_map]
    rfl

theorem convertOneofs_accepts (index : Nat) (oneofs : List Oneof) :
    hasErrors (cx.convertOneofs index oneofs).2 = false ↔
      ∀ f ∈ oneofs.flatMap fun o => o.fields, 1 ≤ f.number.toInt ∧ f.number.toInt ≤ 536870911 := by
  induction oneofs generalizing index with
  | nil => simp [FileContext.convertOneofs, hasErrors]
  | cons o rest ih =>
    rw [FileContext.convertOneofs, hasErrors_append, Bool.or_eq_false_iff, ih, List.flatMap_cons,
      List.forall_mem_append]
    refine and_congr_left fun _ => ?_
    simp only [each, hasErrors_flatMap, FileContext.convertMember, FileContext.convertField,
      checkFieldNumber_accepts]

theorem ownFields_keys (m : Message) :
    (cx.ownFields path m).1.map (fun f => (f.name, f.number)) =
      (written m).map fun entry => (some entry.1, some entry.2.toInt32) := by
  simp only [FileContext.ownFields, List.map_append, convertOneofs_keys, written, members, each,
    List.map_map]
  rfl

theorem ownFields_accepts (m : Message) :
    hasErrors (cx.ownFields path m).2 = false ↔
      ∀ number ∈ (written m).map Prod.snd, 1 ≤ number.toInt ∧ number.toInt ≤ 536870911 := by
  simp only [FileContext.ownFields, hasErrors_append, Bool.or_eq_false_iff, convertOneofs_accepts,
    each, hasErrors_flatMap, FileContext.convertField, FileContext.convertMapField,
    checkFieldNumber_accepts, written, List.map_append, List.map_map, List.forall_mem_append,
    List.forall_mem_map, members]
  rfl

theorem convertMessage_accepts {m : Message} {pathPrefix : String}
    (silent : hasErrors (cx.convertMessage path m).2 = false) :
    ∀ entry ∈ within pathPrefix m, ∀ number ∈ (written entry.2).map Prod.snd,
      1 ≤ number.toInt ∧ number.toInt ≤ 536870911 := by
  induction m using Message.induction generalizing path pathPrefix with
  | step m ih =>
    rw [FileContext.convertMessage_snd] at silent
    simp only [hasErrors_append, Bool.or_eq_false_iff, hasErrors_flatMap] at silent
    rw [within_eq]
    intro entry member
    rcases List.mem_cons.mp member with rfl | below
    · exact (ownFields_accepts m).mp silent.1.1.1
    · obtain ⟨n, nested, deeper⟩ := List.mem_flatMap.mp below
      exact ih n nested (silent.1.1.2 n nested) entry deeper

theorem checkMessagesDuplicates_eq (ms : List Message) :
    checkMessagesDuplicates ms = ms.flatMap checkMessageDuplicates := by
  induction ms with
  | nil => rw [checkMessagesDuplicates, List.flatMap_nil]
  | cons m rest ih => rw [checkMessagesDuplicates, List.flatMap_cons, ih]

theorem checkMessageDuplicates_accepts {m : Message} {pathPrefix : String}
    (silent : hasErrors (checkMessageDuplicates m) = false) :
    ∀ entry ∈ within pathPrefix m,
      ((entry.2.fields ++ members entry.2).map fun f => f.name.name).Nodup := by
  induction m using Message.induction generalizing pathPrefix with
  | step m ih =>
    have both : checkMessageDuplicates m =
        repeated [] ((m.fields ++ members m).map fun f => (f.name.name, Diagnostic.error
          .duplicateSymbol ("duplicate field '" ++ f.name.name ++ "' in message '" ++
            m.name.name ++ "'") (some f.span))) ++
        m.nestedMessages.flatMap checkMessageDuplicates := by
      rw [← checkMessagesDuplicates_eq]
      cases m
      rw [checkMessageDuplicates]
      rfl
    rw [both, hasErrors_append, Bool.or_eq_false_iff, hasErrors_flatMap] at silent
    rw [within_eq]
    intro entry member
    rcases List.mem_cons.mp member with rfl | below
    · have distinct := distinct_of_repeated (fun item inside => by
        obtain ⟨f, _, rfl⟩ := List.mem_map.mp inside
        rfl) silent.1
      simpa [Function.comp_def] using distinct
    · obtain ⟨n, nested, deeper⟩ := List.mem_flatMap.mp below
      exact ih n nested (silent.2 n nested) entry deeper

end Conversion

section Messages

theorem SoundMessage.congr {m n : DescriptorProto} (numbers : fieldNumbers m = fieldNumbers n)
    (names : fieldNames m = fieldNames n) (ranges : m.reservedRange = n.reservedRange)
    (reserved : m.reservedName = n.reservedName) : SoundMessage m ↔ SoundMessage n := by
  constructor <;> intro ⟨distinct, inRange, unreserved, allowed, named⟩
  · exact ⟨numbers ▸ distinct, numbers ▸ inRange, numbers ▸ ranges ▸ unreserved,
      names ▸ reserved ▸ allowed, names ▸ named⟩
  · exact ⟨numbers ▸ distinct, numbers ▸ inRange, numbers ▸ ranges ▸ unreserved,
      names ▸ reserved ▸ allowed, names ▸ named⟩

variable {cx : FileContext} {path : String}

theorem convertEntry_sound (mf : MapField) : SoundMessage (cx.convertEntry mf) where
  distinct := by simp [fieldNumbers, FileContext.convertEntry]
  inRange := by simp [fieldNumbers, FileContext.convertEntry]
  unreserved := by simp [FileContext.convertEntry]
  allowed := by simp [FileContext.convertEntry]
  named := by simp [fieldNames, FileContext.convertEntry]

private theorem narrow_nodup {numbers : List Int64}
    (inRange : ∀ n ∈ numbers, 1 ≤ n.toInt ∧ n.toInt ≤ 536870911) :
    (numbers.map fun n => some n.toInt32).Nodup ↔ numbers.Nodup := by
  refine ⟨fun mapped => mapped.of_map _, fun distinct => distinct.map_on ?_⟩
  intro a memberA b memberB same
  have fits : ∀ n ∈ numbers, n.toInt32.toInt = n.toInt := by
    intro n member
    obtain ⟨low, high⟩ := inRange n member
    refine toInt_toInt32_iff.mpr ⟨?_, ?_⟩ <;> omega
  refine Int64.toInt_inj.mp ?_
  rw [← fits a memberA, ← fits b memberB, Option.some.inj same]

private theorem written_names_nodup {m : Message}
    (checked : ((m.fields ++ members m).map fun f => f.name.name).Nodup) :
    ((written m).map Prod.fst).Nodup ↔ (m.maps.map fun mf => mf.name.name).Nodup ∧
      ∀ mf ∈ m.maps, mf.name.name ∉ (members m ++ m.fields).map fun f => f.name.name := by
  have others : ((members m ++ m.fields).map fun f => f.name.name).Nodup := by
    rw [List.map_append] at checked ⊢
    exact List.nodup_append_comm.mp checked
  have split : (written m).map Prod.fst =
      (members m ++ m.fields).map (fun f => f.name.name) ++ m.maps.map fun mf => mf.name.name := by
    simp only [written, List.map_append, List.map_map]
    rfl
  rw [split, List.nodup_append]
  constructor
  · rintro ⟨_, maps, apart⟩
    exact ⟨maps, fun mf member inside => apart _ inside _ (List.mem_map_of_mem member) rfl⟩
  · rintro ⟨maps, apart⟩
    refine ⟨others, maps, fun name inside other member same => ?_⟩
    obtain ⟨mf, among, rfl⟩ := List.mem_map.mp member
    exact apart mf among (same ▸ inside)

/-- A message without number errors and repeated fields is sound exactly if its source keeps
the other restrictions. -/
theorem convertMessage_sound_iff {m : Message}
    (inRange : ∀ n ∈ (written m).map Prod.snd, 1 ≤ n.toInt ∧ n.toInt ≤ 536870911)
    (checked : ((m.fields ++ members m).map fun f => f.name.name).Nodup) :
    SoundMessage (cx.convertMessage path m).1 ↔ Restricted m := by
  have keys : (cx.ownFields path m).1.map (fun f => (f.name, f.number)) =
      (written m).map fun entry => (some entry.1, some entry.2.toInt32) := ownFields_keys m
  have numbers : fieldNumbers (cx.convertMessage path m).1 =
      ((written m).map Prod.snd).map fun n => some n.toInt32 := by
    have seconds := congrArg (List.map Prod.snd) keys
    rw [FileContext.convertMessage_fst]
    simpa [fieldNumbers, Function.comp_def] using seconds
  have names : fieldNames (cx.convertMessage path m).1 = ((written m).map Prod.fst).map some := by
    have firsts := congrArg (List.map Prod.fst) keys
    rw [FileContext.convertMessage_fst]
    simpa [fieldNames, Function.comp_def] using firsts
  have ranges : (cx.convertMessage path m).1.reservedRange = m.reservedRanges.map convertReserved := by
    rw [FileContext.convertMessage_fst]
  have reserved : (cx.convertMessage path m).1.reservedName = m.reservedNames.map fun n => n.name := by
    rw [FileContext.convertMessage_fst]
  constructor
  · rintro ⟨distinct, _, unreserved, allowed, named⟩
    rw [numbers] at distinct unreserved
    rw [names] at allowed named
    rw [ranges] at unreserved
    rw [reserved] at allowed
    obtain ⟨maps, apart⟩ := (written_names_nodup checked).mp (named.of_map _)
    refine ⟨(narrow_nodup inRange).mp distinct, ?_, ?_, maps, apart⟩
    · intro n member r among
      exact unreserved n.toInt32 (List.mem_map_of_mem member) (convertReserved r)
        (List.mem_map_of_mem among)
    · exact fun name member => allowed name (List.mem_map_of_mem member)
  · rintro ⟨distinct, unreserved, allowed, maps, apart⟩
    refine ⟨?_, ?_, ?_, ?_, ?_⟩
    · rw [numbers]
      exact (narrow_nodup inRange).mpr distinct
    · rw [numbers]
      intro number member
      obtain ⟨n, among, rfl⟩ := List.mem_map.mp member
      obtain ⟨low, high⟩ := inRange n among
      have same : n.toInt32.toInt = n.toInt := by
        refine toInt_toInt32_iff.mpr ⟨?_, ?_⟩ <;> omega
      exact ⟨n.toInt32, rfl, by rw [same]; exact low, by rw [same]; exact high⟩
    · rw [numbers, ranges]
      intro k member r among
      obtain ⟨n, inside, same⟩ := List.mem_map.mp member
      obtain ⟨range, source, rfl⟩ := List.mem_map.mp among
      rw [← Option.some.inj same]
      exact unreserved n inside range source
    · rw [names, reserved]
      intro name member
      obtain ⟨source, inside, same⟩ := List.mem_map.mp member
      rw [← Option.some.inj same]
      exact allowed source inside
    · rw [names]
      exact ((written_names_nodup checked).mpr ⟨maps, apart⟩).map fun _ _ same => Option.some.inj same

/-- All messages in a converted message are sound exactly if all in its source are restricted. -/
theorem convertMessage_all_sound {m : Message} {scope pathPrefix : String}
    (inRange : ∀ entry ∈ within pathPrefix m, ∀ n ∈ (written entry.2).map Prod.snd,
      1 ≤ n.toInt ∧ n.toInt ≤ 536870911)
    (checked : ∀ entry ∈ within pathPrefix m,
      ((entry.2.fields ++ members entry.2).map fun f => f.name.name).Nodup) :
    (∀ entry ∈ produced scope (cx.convertMessage path m).1, SoundMessage entry.2) ↔
      ∀ entry ∈ within pathPrefix m, Restricted entry.2 := by
  induction m using Message.induction generalizing path scope pathPrefix with
  | step m ih =>
    rw [within_eq] at inRange checked ⊢
    rw [produced_eq, List.forall_mem_cons, List.forall_mem_cons]
    refine and_congr (convertMessage_sound_iff (inRange _ List.mem_cons_self)
      (checked _ List.mem_cons_self)) ?_
    have nested : ∀ {scope : String}, ∀ n ∈ m.nestedMessages, ∀ path,
        (∀ entry ∈ produced scope (cx.convertMessage path n).1, SoundMessage entry.2) ↔
          ∀ entry ∈ within (qualify pathPrefix m.name.name) n, Restricted entry.2 := by
      intro scope n member path
      have deeper : ∀ entry ∈ within (qualify pathPrefix m.name.name) n, entry ∈ (pathPrefix, m) ::
          m.nestedMessages.flatMap (within (qualify pathPrefix m.name.name)) :=
        fun entry below => List.mem_cons_of_mem _ (List.mem_flatMap.mpr ⟨n, member, below⟩)
      exact ih n member (fun entry below => inRange entry (deeper entry below))
        fun entry below => checked entry (deeper entry below)
    rw [FileContext.convertMessage_fst]
    simp only [List.forall_mem_flatMap, List.forall_mem_append, List.forall_mem_map]
    constructor
    · rintro ⟨_, sound⟩ n member
      exact (nested n member _).mp (sound n member)
    · intro restricted
      refine ⟨fun mf _ entry inside => ?_, fun n member => (nested n member _).mpr (restricted n member)⟩
      rw [produced_eq] at inside
      rw [List.mem_singleton.mp inside]
      exact convertEntry_sound mf

/-- Resolving references changes neither the numbers nor the names of any message. -/
theorem resolveMessage_all_sound {visible : List String} {fileName : String} {m : DescriptorProto}
    {scope pathPrefix : String} :
    (∀ entry ∈ produced scope (resolveMessage visible fileName pathPrefix m).1,
        SoundMessage entry.2) ↔
      ∀ entry ∈ produced scope m, SoundMessage entry.2 := by
  induction m using DescriptorProto.induction generalizing scope pathPrefix with
  | step m ih =>
    have kept : ∀ f, (resolveFieldType pathPrefix visible fileName f).1.number = f.number ∧
        (resolveFieldType pathPrefix visible fileName f).1.name = f.name := by
      intro f
      unfold resolveFieldType
      repeat' split
      all_goals exact ⟨rfl, rfl⟩
    rw [produced_eq, produced_eq, resolveMessage_fst, List.forall_mem_cons, List.forall_mem_cons]
    refine and_congr (SoundMessage.congr ?_ ?_ rfl rfl) ?_
    · simp [fieldNumbers, kept]
    · simp [fieldNames, kept]
    · simp only [List.flatMap_map, List.forall_mem_flatMap]
      exact forall₂_congr fun n member => ih n member

end Messages

section Enums

variable {cx : FileContext} {path : String}

theorem convertEnum_kept_iff (e : Enum) :
    NumbersKept e (convertEnum e).1 ↔ ∀ v ∈ e.values, FitsInt32 v.number := by
  rw [NumbersKept, convertEnum, List.forall₂_map_right_iff, List.forall₂_same]
  refine forall₂_congr fun v _ => ?_
  rw [← toInt_toInt32_iff]
  constructor
  · rintro ⟨n, same, kept⟩
    rw [← kept, ← Option.some.inj same]
  · exact fun kept => ⟨_, rfl, kept⟩

theorem convertMessage_enums {m : Message} {scope pathPrefix : String} :
    (produced scope (cx.convertMessage path m).1).flatMap (fun entry => entry.2.enumType) =
      ((within pathPrefix m).flatMap fun entry => entry.2.nestedEnums).map
        fun e => (convertEnum e).1 := by
  induction m using Message.induction generalizing path scope pathPrefix with
  | step m ih =>
    have entries : ∀ scope mf, (produced scope (cx.convertEntry mf)).flatMap
        (fun entry => entry.2.enumType) = [] := fun scope mf => by
      rw [produced_eq]
      rfl
    have nested : ∀ path scope pathPrefix,
        (m.nestedMessages.flatMap fun n => (produced scope (cx.convertMessage path n).1).flatMap
          fun entry => entry.2.enumType) =
        (m.nestedMessages.flatMap fun n =>
          (within pathPrefix n).flatMap fun entry => entry.2.nestedEnums).map
            fun e => (convertEnum e).1 := by
      intro path scope pathPrefix
      rw [List.map_flatMap]
      exact List.flatMap_congr fun n member => ih n member
    rw [produced_eq, within_eq, FileContext.convertMessage_fst]
    simp only [List.flatMap_cons, List.flatMap_append, List.flatMap_map, List.flatMap_assoc, entries,
      List.map_append, each,
      nested _ _ (qualify pathPrefix m.name.name)]
    simp

theorem resolveMessage_enums {visible : List String} {fileName : String} {m : DescriptorProto}
    {scope pathPrefix : String} :
    (produced scope (resolveMessage visible fileName pathPrefix m).1).flatMap
        (fun entry => entry.2.enumType) =
      (produced scope m).flatMap fun entry => entry.2.enumType := by
  induction m using DescriptorProto.induction generalizing scope pathPrefix with
  | step m ih =>
    rw [produced_eq, produced_eq, resolveMessage_fst]
    simp only [List.flatMap_cons, List.flatMap_map, List.flatMap_assoc]
    congr 1
    exact List.flatMap_congr fun n member => ih n member

end Enums

section Files

variable {displayFloat : UInt64 → String}

theorem compile_checked {f : File} (silent : hasErrors (compile displayFloat f).2 = false) :
    (∀ entry ∈ fileMessages f, ∀ n ∈ (written entry.2).map Prod.snd,
      1 ≤ n.toInt ∧ n.toInt ≤ 536870911) ∧
    ∀ entry ∈ fileMessages f,
      ((entry.2.fields ++ members entry.2).map fun f => f.name.name).Nodup := by
  simp only [compile, checkDuplicates, hasErrors_append, Bool.or_eq_false_iff,
    checkMessagesDuplicates_eq, FileContext.convertMessages_eq, each, hasErrors_flatMap] at silent
  constructor <;> intro entry member <;> obtain ⟨m, top, below⟩ := List.mem_flatMap.mp member
  · exact convertMessage_accepts (silent.1.2 m top) entry below
  · exact checkMessageDuplicates_accepts (silent.1.1.1.2 m top) entry below

theorem resolvedFile_sound_iff {files : List File} {f : File}
    (silent : hasErrors (compile displayFloat f).2 = false) :
    (∀ entry ∈ fileDescriptors (resolvedFile displayFloat files f).1, SoundMessage entry.2) ↔
      ∀ entry ∈ fileMessages f, Restricted entry.2 := by
  obtain ⟨inRange, checked⟩ := compile_checked silent
  have lower : ∀ m ∈ f.messages, ∀ entry ∈ within (packageName f) m, entry ∈ fileMessages f :=
    fun m top entry below => List.mem_flatMap.mpr ⟨m, top, below⟩
  simp only [fileDescriptors, resolvedFile, resolveReferences, resolveMessages_eq, compile,
    FileContext.convertMessages_eq, each, List.flatMap_map, List.forall_mem_flatMap,
    resolveMessage_all_sound, fileMessages]
  exact forall₂_congr fun m top => convertMessage_all_sound
    (fun entry below => inRange entry (lower m top entry below))
    fun entry below => checked entry (lower m top entry below)

theorem resolvedFile_enums {files : List File} {f : File} :
    producedEnums (resolvedFile displayFloat files f).1 =
      (sourceEnums f).map fun e => (convertEnum e).1 := by
  simp only [producedEnums, fileDescriptors, resolvedFile, resolveReferences, resolveMessages_eq,
    compile, FileContext.convertMessages_eq, each, List.flatMap_map, List.flatMap_assoc,
    resolveMessage_enums, sourceEnums, List.map_append, fileMessages, List.map_flatMap]
  congr 1
  refine List.flatMap_congr fun m _ => ?_
  rw [← List.map_flatMap]
  exact convertMessage_enums

end Files

/-- The messages and enums that an accepted set compiles to are sound exactly if in every
message of the source the written numbers differ and avoid the reserved ranges, no name is
reserved, and map fields share no name with other fields; and if all enum numbers fit 32 bits. -/
theorem accepted_sound_iff (displayFloat : UInt64 → String) (files : List File)
    (accepted : Accepted displayFloat files) :
    SoundSet displayFloat files ↔
      ∀ f ∈ files, (∀ entry ∈ fileMessages f, Restricted entry.2) ∧
        ∀ e ∈ sourceEnums f, ∀ v ∈ e.values, FitsInt32 v.number := by
  rw [SoundSet, compileSet_file, List.forall_mem_map, List.forall₂_map_right_iff,
    List.forall₂_same, forall₂_and]
  refine and_congr (forall₂_congr fun f member => ?_) (forall₂_congr fun f _ => ?_)
  · exact resolvedFile_sound_iff (accepted.converted member)
  · rw [resolvedFile_enums, List.forall₂_map_right_iff, List.forall₂_same]
    exact forall₂_congr fun e _ => convertEnum_kept_iff e

/-- `message M { reserved 1; int32 a = 1; int32 b = 1; }` in proto3. -/
def reusedNumber : File where
  name := "a.proto"
  syntaxDecl := some ⟨{}, "proto3"⟩
  messages := [{ emptyMessage "M" with
    fields := [
      ⟨{}, ⟨"a", {}⟩, 1, .scalar .int32, .singular, none, none, []⟩,
      ⟨{}, ⟨"b", {}⟩, 1, .scalar .int32, .singular, none, none, []⟩]
    reservedRanges := [⟨1, none⟩] }]

theorem accepted_sound_iff_reused :
    SoundSet (fun _ => "") [reusedNumber] ↔
      ∀ f ∈ [reusedNumber], (∀ entry ∈ fileMessages f, Restricted entry.2) ∧
        ∀ e ∈ sourceEnums f, ∀ v ∈ e.values, FitsInt32 v.number :=
  accepted_sound_iff (fun _ => "") [reusedNumber] (by decide +kernel)

theorem not_accepted_sound :
    ¬ ∀ (displayFloat : UInt64 → String) (files : List File), Accepted displayFloat files →
      SoundSet displayFloat files := by
  intro sound
  have messages := (sound (fun _ => "") [reusedNumber] (by decide +kernel)).1
  have repeats : ¬ ∀ fd ∈ (compileSet (fun _ => "") [reusedNumber]).set.file,
      ∀ entry ∈ fileDescriptors fd, (fieldNumbers entry.2).Nodup := by decide +kernel
  exact repeats fun fd member entry below => (messages fd member entry below).distinct

end TptProto.Compiler

/-! The field numbers of compiled messages. -/

namespace TptProto.Compiler

open TptProto.Descriptor TptProto.Language

/-- Every field has a number, and it is one a tag can hold. -/
def Numbered (m : DescriptorProto) : Prop :=
  ∀ number ∈ fieldNumbers m, ∃ n, number = some n ∧ 1 ≤ n.toInt ∧ n.toInt ≤ 536870911

theorem Numbered.field {m : DescriptorProto} (numbered : Numbered m) {f : FieldDescriptorProto}
    (member : f ∈ m.field) : ∃ n, f.number = some n ∧ 1 ≤ n.toInt ∧ n.toInt ≤ 536870911 :=
  numbered f.number (List.mem_map_of_mem member)

section Conversion

variable {cx : FileContext} {path : String}

private theorem ownFields_numbered {m : Message} {scope : String}
    (silent : hasErrors (cx.ownFields path m).2 = false) :
    ∀ number ∈ (cx.ownFields scope m).1.map fun f => f.number,
      ∃ n, number = some n ∧ 1 ≤ n.toInt ∧ n.toInt ≤ 536870911 := by
  have keys := congrArg (List.map Prod.snd) (@ownFields_keys cx scope m)
  simp only [List.map_map, Function.comp_def] at keys
  rw [keys]
  intro number member
  obtain ⟨entry, inside, rfl⟩ := List.mem_map.mp member
  obtain ⟨low, high⟩ := (ownFields_accepts m).mp silent entry.2 (List.mem_map_of_mem inside)
  have same : entry.2.toInt32.toInt = entry.2.toInt :=
    toInt_toInt32_iff.mpr ⟨by omega, by omega⟩
  exact ⟨entry.2.toInt32, rfl, by rw [same]; exact low, by rw [same]; exact high⟩

theorem convertMessage_numbered {m : Message} {scope : String}
    (silent : hasErrors (cx.convertMessage path m).2 = false) :
    ∀ entry ∈ produced scope (cx.convertMessage path m).1, Numbered entry.2 := by
  induction m using Message.induction generalizing path scope with
  | step m ih =>
    rw [FileContext.convertMessage_snd] at silent
    simp only [hasErrors_append, Bool.or_eq_false_iff, hasErrors_flatMap] at silent
    rw [produced_eq, List.forall_mem_cons, FileContext.convertMessage_fst]
    refine ⟨ownFields_numbered silent.1.1.1, ?_⟩
    simp only [List.forall_mem_flatMap, List.forall_mem_append, List.forall_mem_map]
    refine ⟨fun mf _ entry inside => ?_, fun n member => ih n member (silent.1.1.2 n member)⟩
    rw [produced_eq] at inside
    rw [List.mem_singleton.mp inside]
    exact (convertEntry_sound mf).inRange

end Conversion

theorem resolveMessage_numbered {visible : List String} {fileName pathPrefix scope : String}
    {m : DescriptorProto} (numbered : ∀ entry ∈ produced scope m, Numbered entry.2) :
    ∀ entry ∈ produced scope (resolveMessage visible fileName pathPrefix m).1, Numbered entry.2 := by
  induction m using DescriptorProto.induction generalizing scope pathPrefix with
  | step m ih =>
    have kept : ∀ f, (resolveFieldType pathPrefix visible fileName f).1.number = f.number := by
      intro f
      unfold resolveFieldType
      repeat' split
      all_goals rfl
    rw [produced_eq, List.forall_mem_cons] at numbered
    rw [produced_eq, resolveMessage_fst, List.forall_mem_cons]
    refine ⟨?_, ?_⟩
    · have same : fieldNumbers m = (m.field.map fun f =>
          (resolveFieldType pathPrefix visible fileName f).1).map fun f => f.number := by
        simp [fieldNumbers, kept]
      intro number inside
      exact numbered.1 number (same ▸ inside)
    · simp only [List.flatMap_map, List.forall_mem_flatMap]
      exact fun n member => ih n member fun entry inside =>
        numbered.2 entry (List.mem_flatMap.mpr ⟨n, member, inside⟩)

theorem Compiled.numbered {displayFloat : UInt64 → String} {fd : FileDescriptorProto}
    (compiled : Compiled displayFloat fd) : ∀ entry ∈ fileDescriptors fd, Numbered entry.2 := by
  obtain ⟨files, accepted, member⟩ := compiled
  rw [compileSet_file] at member
  obtain ⟨f, inside, rfl⟩ := List.mem_map.mp member
  have silent := accepted.converted inside
  simp only [compile, hasErrors_append, Bool.or_eq_false_iff, FileContext.convertMessages_eq, each,
    hasErrors_flatMap] at silent
  simp only [fileDescriptors, resolvedFile, resolveReferences, resolveMessages_eq, compile,
    FileContext.convertMessages_eq, each, List.flatMap_map, List.forall_mem_flatMap]
  exact fun m top => resolveMessage_numbered (convertMessage_numbered (silent.1.2 m top))

end TptProto.Compiler
