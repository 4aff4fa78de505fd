import TptProto.Reflect.Value

/-! Building a descriptor pool from files. Each hash map is kept here by the order of its keys; a
pool in use yields the entries in an order of its own. -/

namespace TptProto.Reflect

open TptProto.Foundation TptProto.Core TptProto.Descriptor

/-- A name inside a package or message. -/
def qualified (scope name : String) : String :=
  if scope.isEmpty then name else scope ++ "." ++ name

namespace DescriptorPool

/-- The default pool. -/
def empty : DescriptorPool := ⟨[], [], [], ""⟩

def indexExtension (pool : DescriptorPool) (x : FieldDescriptorProto) (_scope : String) :
    DescriptorPool :=
  match x.number with
  | some n => { pool with extensions := SortedMap.insert pool.extensions n x }
  | none => pool

def indexEnum (pool : DescriptorPool) (e : EnumDescriptorProto) (scope : String) : DescriptorPool :=
  match e.name with
  | some name => { pool with enums := SortedMap.insert pool.enums (qualified scope name) e }
  | none => pool

mutual

def indexMessage (pool : DescriptorPool) (m : DescriptorProto) (scope : String) : DescriptorPool :=
  match m with
  | ⟨name, field, extension, nestedType, enumType, extensionRange, oneofDecl, options,
      reservedRange, reservedName⟩ =>
    match name with
    | some own =>
      let fqn := qualified scope own
      let pool := { pool with
        messages := SortedMap.insert pool.messages fqn ⟨name, field, extension, nestedType, enumType,
          extensionRange, oneofDecl, options, reservedRange, reservedName⟩ }
      let pool := indexMessages pool nestedType fqn
      let pool := enumType.foldl (fun pool e => pool.indexEnum e fqn) pool
      extension.foldl (fun pool x => pool.indexExtension x fqn) pool
    | none => pool

/-- The loop over the messages of a file or message. -/
def indexMessages (pool : DescriptorPool) (ms : List DescriptorProto) (scope : String) :
    DescriptorPool :=
  match ms with
  | [] => pool
  | m :: rest => indexMessages (indexMessage pool m scope) rest scope

end

/-- The messages, enums and extensions of one file. -/
def indexFile (pool : DescriptorPool) (file : FileDescriptorProto) : DescriptorPool :=
  let pkg := file.package.getD ""
  let pool := indexMessages pool file.messageType pkg
  let pool := file.enumType.foldl (fun pool e => pool.indexEnum e pkg) pool
  file.extension.foldl (fun pool x => pool.indexExtension x pkg) pool

def fromSet (set : FileDescriptorSet) : DescriptorPool :=
  let pool := set.file.foldl (fun pool file =>
    let pool := if pool.syntaxName.isEmpty then
      { pool with syntaxName := file.syntaxName.getD "proto3" } else pool
    pool.indexFile file) empty
  if pool.syntaxName.isEmpty then { pool with syntaxName := "proto3" } else pool

def fromFile (file : FileDescriptorProto) : DescriptorPool :=
  { empty with syntaxName := file.syntaxName.getD "proto3" }.indexFile file

theorem indexMessages_eq (ms : List DescriptorProto) (scope : String) (pool : DescriptorPool) :
    pool.indexMessages ms scope = ms.foldl (fun pool m => pool.indexMessage m scope) pool := by
  induction ms generalizing pool with
  | nil => rfl
  | cons m rest ih => exact ih _

section Induction

variable {Holds : DescriptorPool → Prop}

/-- What every step of a loop keeps, the loop keeps. -/
private theorem foldl_holds {α : Type} {step : DescriptorPool → α → DescriptorPool}
    {items : List α} (keeps : ∀ item ∈ items, ∀ pool, Holds pool → Holds (step pool item)) {pool : DescriptorPool}
    (held : Holds pool) : Holds (items.foldl step pool) := by
  induction items generalizing pool with
  | nil => exact held
  | cons item rest ih =>
    exact ih (fun other member => keeps other (by simp [member])) (keeps item (by simp) pool held)

variable
  (message : ∀ pool fqn m, Holds pool →
    Holds { pool with messages := SortedMap.insert pool.messages fqn m })
  (enum : ∀ pool e scope, Holds pool → Holds (indexEnum pool e scope))
  (extension : ∀ pool x scope, Holds pool → Holds (indexExtension pool x scope))

include message enum extension

/-- What each entry keeps, a message and all in it keep. -/
theorem indexMessage_induction (m : DescriptorProto) (pool : DescriptorPool) (scope : String)
    (held : Holds pool) : Holds (pool.indexMessage m scope) := by
  induction m using DescriptorProto.induction generalizing pool scope with
  | step m nested =>
    obtain ⟨name, _, _, _, _, _, _, _, _, _⟩ := m
    unfold indexMessage
    cases name with
    | none => exact held
    | some own =>
      simp only [indexMessages_eq]
      exact foldl_holds (fun x _ pool => extension pool x _) <|
        foldl_holds (fun e _ pool => enum pool e _) <|
        foldl_holds (fun n member pool => nested n member pool _) (message _ _ _ held)

theorem indexFile_induction (file : FileDescriptorProto) (pool : DescriptorPool) (held : Holds pool) :
    Holds (pool.indexFile file) := by
  simp only [indexFile, indexMessages_eq]
  exact foldl_holds (fun x _ pool => extension pool x _) <|
    foldl_holds (fun e _ pool => enum pool e _) <|
    foldl_holds (fun m _ pool => indexMessage_induction message enum extension m pool _) held

/-- What each entry keeps holds of the pool of any set of files. -/
theorem fromSet_induction
    (named : ∀ pool syntaxName, Holds pool → Holds { pool with syntaxName }) (start : Holds empty)
    (set : FileDescriptorSet) : Holds (fromSet set) := by
  have files : Holds (set.file.foldl (fun (pool : DescriptorPool) file =>
      (if pool.syntaxName.isEmpty then
        { pool with syntaxName := file.syntaxName.getD "proto3" } else pool).indexFile file)
      empty) := by
    refine foldl_holds (fun file _ pool held => ?_) start
    refine indexFile_induction message enum extension file _ ?_
    split
    · exact named _ _ held
    · exact held
  unfold fromSet
  simp only
  split
  · exact named _ _ files
  · exact files

end Induction

end DescriptorPool

end TptProto.Reflect

/-! Looking types up in a pool whose hash maps yield their entries in any order. -/

namespace TptProto.Reflect

open TptProto.Foundation TptProto.Core TptProto.Descriptor

/-- A type name without its leading dots. -/
def normal (typeName : String) : String := String.ofList (typeName.toList.dropWhile (· = '.'))

/-- The key ends in the name and a dot in front of it. -/
def suffixed (name key : String) : Bool := ('.' :: name.toList).isSuffixOf key.toList

section Lookups

variable {α : Type} {entries order : List (String × α)} {typeName : String}

/-- A lookup that no order of the map's entries changes, that prefers a full name, and that does not
pick one of several types. -/
structure LookupSafe (entries : List (String × α)) (typeName : String) : Prop where
  orderFree : ∀ order order' : List (String × α), order.Perm entries → order'.Perm entries →
    DescriptorPool.lookup order typeName = DescriptorPool.lookup order' typeName
  preferred : ∀ (order : List (String × α)) (value : α), order.Perm entries →
    (normal typeName, value) ∈ entries → DescriptorPool.lookup order typeName = some value
  refuses : ∀ order : List (String × α), order.Perm entries →
    (∀ value, (normal typeName, value) ∉ entries) →
    2 ≤ (entries.filter fun entry => suffixed (normal typeName) entry.1).length →
    DescriptorPool.lookup order typeName = none

/-- The name is a full name, or at most one full name ends in it. -/
def Unambiguous (entries : List (String × α)) (typeName : String) : Prop :=
  (∃ value, (normal typeName, value) ∈ entries) ∨
    (entries.filter fun entry => suffixed (normal typeName) entry.1).length ≤ 1

/-- A full name is found whatever the order. -/
theorem lookup_full (distinct : (entries.map Prod.fst).Nodup) (iterated : order.Perm entries)
    {value : α} (member : (normal typeName, value) ∈ entries) :
    DescriptorPool.lookup order typeName = some value := by
  have found : SortedMap.get? order (normal typeName) = some value :=
    SortedMap.get?_of_distinct ((iterated.map Prod.fst).nodup_iff.mpr distinct)
      (iterated.mem_iff.mpr member)
  unfold DescriptorPool.lookup
  simp only [← normal.eq_1, found]

/-- Without a full name, the first entry with the suffix is taken. -/
theorem lookup_suffix (iterated : order.Perm entries)
    (absent : ∀ value, (normal typeName, value) ∉ entries) :
    DescriptorPool.lookup order typeName =
      ((order.filter fun entry => suffixed (normal typeName) entry.1).head?).map Prod.snd := by
  have missing : SortedMap.get? order (normal typeName) = none := by
    apply SortedMap.get?_eq_none_iff.mpr
    rintro ⟨key, value⟩ member rfl
    exact absent value (iterated.mem_iff.mp member)
  have alike : order.filter (fun entry => entry.1 = normal typeName ||
      suffixed (normal typeName) entry.1) =
      order.filter fun entry => suffixed (normal typeName) entry.1 := by
    apply List.filter_congr
    rintro ⟨key, value⟩ member
    have other : key ≠ normal typeName := by
      rintro rfl
      exact absent value (iterated.mem_iff.mp member)
    simp [other]
  unfold DescriptorPool.lookup
  simp only [← normal.eq_1, missing, ← alike, List.head?_filter]
  rfl

/-- Lookups are safe exactly for unambiguous names. -/
theorem lookupSafe_iff (distinct : (entries.map Prod.fst).Nodup) :
    LookupSafe entries typeName ↔ Unambiguous entries typeName := by
  constructor
  · intro safe
    by_cases full : ∃ value, (normal typeName, value) ∈ entries
    · exact .inl full
    · refine .inr (Nat.le_of_not_lt fun several => ?_)
      have absent : ∀ value, (normal typeName, value) ∉ entries := fun value member =>
        full ⟨value, member⟩
      have refused := safe.refuses entries (List.Perm.refl _) absent several
      rw [lookup_suffix (List.Perm.refl _) absent, Option.map_eq_none_iff, List.head?_eq_none_iff]
        at refused
      rw [refused] at several
      cases several
  · rintro (⟨value, member⟩ | single)
    · refine ⟨fun order order' iterated iterated' => ?_, fun order value' iterated member' => ?_,
        fun order _ absent => absurd member (absent value)⟩
      · rw [lookup_full distinct iterated member, lookup_full distinct iterated' member]
      · exact lookup_full distinct iterated member'
    · refine ⟨fun order order' iterated iterated' => ?_, fun order value' iterated member' => ?_,
        fun order _ _ several => absurd several (by omega)⟩
      · by_cases full : ∃ value, (normal typeName, value) ∈ entries
        · obtain ⟨value, member⟩ := full
          rw [lookup_full distinct iterated member, lookup_full distinct iterated' member]
        · have absent : ∀ value, (normal typeName, value) ∉ entries := fun value member =>
            full ⟨value, member⟩
          have same (order : List (String × α)) (iterated : order.Perm entries) :
              order.filter (fun entry => suffixed (normal typeName) entry.1) =
                entries.filter fun entry => suffixed (normal typeName) entry.1 := by
            have picked := iterated.filter fun entry => suffixed (normal typeName) entry.1
            cases held : entries.filter fun entry => suffixed (normal typeName) entry.1 with
            | nil => exact List.perm_nil.mp (held ▸ picked)
            | cons entry rest =>
              rw [held, List.length_cons] at single
              obtain rfl : rest = [] := List.length_eq_zero_iff.mp (by omega)
              exact List.perm_singleton.mp (held ▸ picked)
          rw [lookup_suffix iterated absent, lookup_suffix iterated' absent, same order iterated,
            same order' iterated']
      · exact lookup_full distinct iterated member'

end Lookups

/-- The maps of a pool hold each name once. -/
theorem fromSet_sorted (set : FileDescriptorSet) :
    SortedMap.Sorted (DescriptorPool.fromSet set).messages ∧
      SortedMap.Sorted (DescriptorPool.fromSet set).enums := by
  refine @DescriptorPool.fromSet_induction
    (fun pool => SortedMap.Sorted pool.messages ∧ SortedMap.Sorted pool.enums)
    (fun pool fqn m held => ⟨held.1.insert fqn m, held.2⟩) (fun pool e scope held => ?_)
    (fun pool x scope held => ?_) (fun pool _ held => held)
    ⟨SortedMap.sorted_nil, SortedMap.sorted_nil⟩ set
  · unfold DescriptorPool.indexEnum
    split
    · exact ⟨held.1, held.2.insert _ _⟩
    · exact held
  · unfold DescriptorPool.indexExtension
    split <;> exact held

/-- Lookups in the pool of a set of files are safe exactly for the names that are unambiguous among
its messages and among its enums. -/
theorem lookups_safe_iff (set : FileDescriptorSet) (typeName : String) :
    LookupSafe (DescriptorPool.fromSet set).messages typeName ∧
        LookupSafe (DescriptorPool.fromSet set).enums typeName ↔
      Unambiguous (DescriptorPool.fromSet set).messages typeName ∧
        Unambiguous (DescriptorPool.fromSet set).enums typeName := by
  obtain ⟨messages, enums⟩ := fromSet_sorted set
  exact and_congr (lookupSafe_iff messages.nodup) (lookupSafe_iff enums.nodup)

/-- Two packages, each with a message `Person`. -/
private def people : FileDescriptorSet where
  file :=
    [{ package := some "a", messageType := [{ name := some "Person" }] },
      { package := some "b",
        messageType := [{ name := some "Person", reservedName := ["age"] }] }]

/-- The short name finds either message, as the map happens to be ordered. -/
theorem not_lookups_safe :
    ¬ ∀ (set : FileDescriptorSet) (typeName : String),
      LookupSafe (DescriptorPool.fromSet set).messages typeName ∧
        LookupSafe (DescriptorPool.fromSet set).enums typeName := by
  intro safe
  have same := (safe people "Person").1.orderFree (DescriptorPool.fromSet people).messages
    (DescriptorPool.fromSet people).messages.reverse (List.Perm.refl _) (List.reverse_perm _)
  exact absurd same (by decide)

end TptProto.Reflect
