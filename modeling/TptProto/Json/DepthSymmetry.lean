import TptProto.Json.ReadDepth

/-! The limit of nesting, as printing and reading count against it. -/

namespace TptProto.Json

open TptProto.Foundation TptProto.Core TptProto.Descriptor TptProto.Reflect

section Symmetry

variable (libs : Libraries) (pool : DescriptorPool) (opts : JsonOptions) (desc : DescriptorProto)

/-- What is read from the document is printed without exceeding the limit. -/
def PrintsAccepted (json : Json) : Prop :=
  ∀ msg, jsonToMessage libs pool opts desc json = .ok msg →
    (messageToJson libs pool opts desc msg).Avoids IsLimit

/-- What is printed for the message is read without exceeding the limit. -/
def ReadsPrinted (msg : DynamicMessage) : Prop :=
  ∀ json, messageToJson libs pool opts desc msg = .ok json →
    (jsonToMessage libs pool opts desc json).Avoids IsLimit

/-- An accepted document is printed again exactly if nothing in it lies below the limit, where
every message in a field counts for three levels; and a printed message is read again if nothing
that is read does, where it counts for two, and each item of a list of values for four. -/
theorem limit_symmetric_iff (dated : Dated libs) :
    (∀ json, (∃ msg, jsonToMessage libs pool opts desc json = .ok msg) →
      Everywhere (Nests pool opts) (Proper pool) (desc, json) →
        (PrintsAccepted libs pool opts desc json ↔
          Within (Nests pool opts) opts.maxDepth (desc, json) 0)) ∧
    (Structured pool → ∀ msg, Everywhere (ReadsIn pool) (Legible pool opts) (desc, some msg) →
      Within (ReadsIn pool) opts.maxDepth (desc, some msg) 0 →
        ReadsPrinted libs pool opts desc msg) := by
  constructor
  · rintro json ⟨msg, isRead⟩ proper
    have decides : (messageToJson libs pool opts desc msg).Decides (depthExceeded opts)
        (Within (Nests pool opts) opts.maxDepth (desc, json) 0) :=
      messageToJsonImpl_decides libs dated _ isRead proper (opts.maxDepth + 1) (by omega)
    constructor
    · intro prints
      apply Classical.byContradiction
      intro exceeded
      exact prints msg isRead _ (decides.refused exceeded) ⟨_, rfl⟩
    · intro within other isRead'
      cases isRead.symm.trans isRead'
      obtain ⟨text, printed⟩ := decides.ok within
      rw [printed]
      exact .ok text
  · intro structured msg legible within json printed
    exact rereads_all libs structured _ _ _ _ _ printed _ 0 _ (.inl rfl) legible within (by omega)

end Symmetry

section Samples

/-- A message that can hold one of its own type. -/
def nodeType : DescriptorProto where
  name := some "N"
  field := [{ name := some "n", number := some 1, label := some .optional, type := some .message,
              typeName := some ".N" }]

/-- A message with a list of values. -/
def valuesType : DescriptorProto where
  name := some "L"
  field := [{ name := some "v", number := some 1, label := some .repeated, type := some .message,
              typeName := some ".google.protobuf.Value" }]

def nestingPool : DescriptorPool where
  messages := ("L", valuesType) :: ("N", nodeType) :: structPool.messages
  enums := []
  extensions := []
  syntaxName := "proto3"

theorem sampleLibraries_dated : Dated sampleLibraries where
  epoch := rfl
  parsed := by
    intro s secs nanos parsed
    simp only [sampleLibraries] at parsed ⊢
    split at parsed
    · cases parsed
      rfl
    · cases parsed

/-- `{"n": {}}` -/
def nestedOnce : Json := .object [("n", .object [])]

private theorem node_plain : wellKnown? nestingPool nodeType = none := by decide

private theorem nodes_nest {map : List (String × Json)} {deeper : Nat}
    {inner : DescriptorProto × Json}
    (nests : Nests nestingPool { maxDepth := 3 } (nodeType, .object map) deeper inner) :
    deeper = 3 ∧ ∃ jv, SortedMap.get? map "n" = some jv ∧ inner = (nodeType, jv) := by
  cases nests with
  | field _ kept nests =>
    obtain ⟨before, after, split, _⟩ := kept.last
    have inside : _ ∈ nodeType.field := split ▸ List.mem_append_cons_self
    cases List.mem_singleton.mp inside
    have member := kept.member
    cases nests with
    | single _ holds =>
      have resolved : nestingPool.lookupMessage ".N" = some nodeType := by decide
      cases holds.resolved.symm.trans resolved
      exact ⟨rfl, _, member, rfl⟩
    | entry isMap => exact (nomatch isMap)
  | struct known => rw [node_plain] at known; cases known
  | object known => rw [node_plain] at known; cases known

private theorem node_proper (json : Json) : Proper nestingPool (nodeType, json) where
  numbered field inside := by
    rw [List.mem_singleton.mp inside]
    rfl
  packed known := by
    rw [node_plain] at known
    cases known

private theorem fresh_reads {deeper : Nat} {inner : DescriptorProto × Option DynamicMessage} :
    ¬ ReadsIn nestingPool (nodeType, some (DynMsg.new nodeType nestingPool)) deeper inner := by
  intro reads
  cases reads with
  | field _ _ _ _ held => cases held
  | entry _ _ _ _ _ held => cases held
  | struct known => rw [node_plain] at known; cases known
  | listValue known => rw [node_plain] at known; cases known
  | value known => rw [node_plain] at known; cases known
  | any known => rw [node_plain] at known; cases known
  | anyInAny known => rw [node_plain] at known; cases known
  | emptied known => rw [node_plain] at known; cases known

/-- One message in another is printed within three levels, and an empty one is read. -/
theorem limit_symmetric_nested :
    PrintsAccepted sampleLibraries nestingPool { maxDepth := 3 } nodeType nestedOnce ∧
      ReadsPrinted sampleLibraries nestingPool { maxDepth := 3 } nodeType
        (DynMsg.new nodeType nestingPool) := by
  have symmetric := limit_symmetric_iff sampleLibraries nestingPool { maxDepth := 3 } nodeType
    sampleLibraries_dated
  have inner {deeper : Nat} {target : DescriptorProto × Json}
      (nests : Nests nestingPool { maxDepth := 3 } (nodeType, nestedOnce) deeper target) :
      deeper = 3 ∧ target = (nodeType, .object []) := by
    obtain ⟨three, jv, member, same⟩ := nodes_nest nests
    cases member
    exact ⟨three, same⟩
  have leaf (deeper : Nat) (target : DescriptorProto × Json) :
      ¬ Nests nestingPool { maxDepth := 3 } (nodeType, .object []) deeper target := by
    intro nests
    obtain ⟨_, jv, member, _⟩ := nodes_nest nests
    cases member
  constructor
  · refine (symmetric.1 nestedOnce ⟨_, rfl⟩ ?_).mpr ?_
    · intro weight target path
      cases path with
      | here => exact node_proper _
      | step nests later =>
        obtain ⟨_, rfl⟩ := inner nests
        cases later with
        | here => exact node_proper _
        | step nests => exact (leaf _ _ nests).elim
    · refine within_iff.mpr ⟨Nat.zero_le _, ?_⟩
      intro weight target nests
      obtain ⟨rfl, rfl⟩ := inner nests
      exact (within_leaf leaf).mpr (Nat.le_refl 3)
  · refine symmetric.2 ⟨?_, ?_, ?_⟩ _ ?_ ?_
    · intro desc found
      cases found.symm.trans (show _ = some valueType by decide)
      decide
    · intro desc found
      cases found.symm.trans (show _ = some structType by decide)
      decide
    · intro desc found
      cases found.symm.trans (show _ = some listType by decide)
      decide
    · intro weight target path
      cases path with
      | here =>
        constructor
        · intro _ f inside g inside' _ _ _
          rw [List.mem_singleton.mp inside, List.mem_singleton.mp inside']
        · intro known
          rw [node_plain] at known
          cases known
      | step reads => exact (fresh_reads reads).elim
    · exact (within_leaf fun _ _ => fresh_reads).mpr (Nat.zero_le _)

/-- One message in another is read within two levels and then not printed. One null in a list of
values is printed within three levels and then not read. -/
theorem not_limit_symmetric :
    ¬ PrintsAccepted sampleLibraries nestingPool { maxDepth := 2 } nodeType nestedOnce ∧
      ¬ ReadsPrinted sampleLibraries nestingPool { maxDepth := 3 } valuesType
        ((DynMsg.new valuesType nestingPool).setField 1 (.list [.message
          ((DynMsg.new valueType nestingPool).setField 1 (.enum 0))])) := by
  constructor
  · intro prints
    exact prints _ rfl _ rfl ⟨_, rfl⟩
  · intro reads
    exact reads _ rfl _ rfl ⟨_, rfl⟩

end Samples

end TptProto.Json
