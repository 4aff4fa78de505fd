import TptProto.Json.Parse
import TptProto.Reflect.Oneof

/-! What a message holds after the members of an object are read into it. -/

namespace TptProto.Json

open TptProto.Foundation TptProto.Core TptProto.Descriptor TptProto.Reflect

/-- The object has a member for the field that is not null. -/
def Present (opts : JsonOptions) (map : List (String × Json)) (field : FieldDescriptorProto) : Prop :=
  ∃ jv, memberOf opts map field = some jv ∧ jv ≠ .null

/-- Setting a field replaces or clears the value under a number. -/
def Overwrites (desc : DescriptorProto) (field : FieldDescriptorProto) (number : Int32) : Prop :=
  field.number.getD 0 = number ∨ displaces desc (field.number.getD 0) number = true

/-- The member is read into a field that none of the later ones overwrites. -/
structure Kept (opts : JsonOptions) (desc : DescriptorProto) (fields : List FieldDescriptorProto)
    (map : List (String × Json)) (field : FieldDescriptorProto) (jv : Json) : Prop where
  member : memberOf opts map field = some jv
  present : jv ≠ .null
  last : ∃ before after, fields = before ++ field :: after ∧
    ∀ later ∈ after, Present opts map later → ¬ Overwrites desc later (field.number.getD 0)

section Fold

variable (libs : Libraries) (pool : DescriptorPool) {opts : JsonOptions}
  (recurse : Nat → DescriptorProto → Json → JsonResult DynamicMessage)
  {map : List (String × Json)} {depth : Nat} {fields : List FieldDescriptorProto}

theorem step_absent {msg : DynamicMessage} {field : FieldDescriptorProto}
    (absent : ¬ Present opts map field) :
    jsonToFieldStep libs pool opts recurse map depth msg field = .ok msg := by
  unfold jsonToFieldStep
  split
  · rfl
  · rfl
  · rename_i jv notNull member
    exact (absent ⟨jv, member, notNull⟩).elim

theorem step_present {msg : DynamicMessage} {field : FieldDescriptorProto} {jv : Json}
    (member : memberOf opts map field = some jv) (present : jv ≠ .null) :
    jsonToFieldStep libs pool opts recurse map depth msg field = (do
      let value ← jsonToField libs pool opts recurse field jv depth
      .ok (msg.setField (field.number.getD 0) value)) := by
  unfold jsonToFieldStep
  rw [member]
  cases jv with
  | null => exact (present rfl).elim
  | bool | number | string | array | object => rfl

private theorem not_kept_nil {desc : DescriptorProto} {field : FieldDescriptorProto} {jv : Json} :
    ¬ Kept opts desc [] map field jv := by
  rintro ⟨_, _, before, after, split, _⟩
  cases before <;> cases split

private theorem kept_cons {desc : DescriptorProto} {head field : FieldDescriptorProto} {jv : Json} :
    Kept opts desc (head :: fields) map field jv ↔
      (head = field ∧ memberOf opts map field = some jv ∧ jv ≠ .null ∧
        ∀ later ∈ fields, Present opts map later →
          ¬ Overwrites desc later (field.number.getD 0)) ∨
      Kept opts desc fields map field jv := by
  constructor
  · rintro ⟨member, present, before, after, split, last⟩
    cases before with
    | nil =>
      cases split
      exact .inl ⟨rfl, member, present, last⟩
    | cons other before =>
      cases split
      exact .inr ⟨member, present, before, after, rfl, last⟩
  · rintro (⟨rfl, member, present, last⟩ | ⟨member, present, before, after, rfl, last⟩)
    · exact ⟨member, present, [], fields, rfl, last⟩
    · exact ⟨member, present, head :: before, after, rfl, last⟩

/-- Reading the members of an object sets exactly the values that are kept. -/
theorem fold_getField {msg final : DynamicMessage}
    (folded : fields.foldlM (jsonToFieldStep libs pool opts recurse map depth) msg = .ok final)
    (ordered : msg.Ordered) :
    final.descriptor = msg.descriptor ∧ final.Ordered ∧ ∀ number value,
      final.getField number = some value ↔
        (∃ field jv, Kept opts msg.descriptor fields map field jv ∧ field.number.getD 0 = number ∧
          jsonToField libs pool opts recurse field jv depth = .ok value) ∨
        (msg.getField number = some value ∧ ∀ later ∈ fields, Present opts map later →
          ¬ Overwrites msg.descriptor later number) := by
  induction fields generalizing msg with
  | nil =>
    have same : msg = final := Outcome.ok.inj folded
    subst same
    refine ⟨rfl, ordered, ?_⟩
    intro number value
    constructor
    · intro held
      right
      exact ⟨held, fun later inside => (List.not_mem_nil inside).elim⟩
    · intro held
      rcases held with ⟨field, jv, kept, _⟩ | ⟨held, _⟩
      · exact (not_kept_nil kept).elim
      · exact held
  | cons head rest inductionHypothesis =>
    rw [List.foldlM_cons, Outcome.bind_eq_ok] at folded
    obtain ⟨next, moved, folded⟩ := folded
    by_cases present : Present opts map head
    · obtain ⟨jv, member, notNull⟩ := present
      rw [step_present libs pool recurse member notNull, Outcome.bind_eq_ok] at moved
      obtain ⟨value, read, moved⟩ := moved
      cases moved
      obtain ⟨sameDesc, sorted, held⟩ :=
        inductionHypothesis folded (DynMsg.setField_ordered ordered (head.number.getD 0) value)
      refine ⟨sameDesc, sorted, ?_⟩
      intro number found
      rw [held, DynMsg.getField_setField ordered, DynMsg.setField_descriptor]
      constructor
      · rintro (⟨field, jv', kept, numbered, isRead⟩ | ⟨here, last⟩)
        · exact .inl ⟨field, jv', kept_cons.mpr (.inr kept), numbered, isRead⟩
        · split at here
          · rename_i same
            cases here
            subst same
            exact .inl ⟨head, jv, kept_cons.mpr (.inl ⟨rfl, member, notNull, last⟩), rfl, read⟩
          · rename_i other
            split at here
            · cases here
            · rename_i apart
              refine .inr ⟨here, ?_⟩
              intro later inside isPresent
              rcases List.mem_cons.mp inside with rfl | inRest
              · rintro (same | displaced)
                · exact other same.symm
                · exact apart displaced
              · exact last later inRest isPresent
      · rintro (⟨field, jv', kept, numbered, isRead⟩ | ⟨here, last⟩)
        · rcases kept_cons.mp kept with ⟨rfl, member', _, last⟩ | later
          · cases member.symm.trans member'
            cases read.symm.trans isRead
            refine .inr ⟨by rw [if_pos numbered.symm], ?_⟩
            rw [← numbered]
            exact last
          · exact .inl ⟨field, jv', later, numbered, isRead⟩
        · have apart := last head List.mem_cons_self ⟨jv, member, notNull⟩
          refine .inr ⟨?_, fun later inRest => last later (List.mem_cons_of_mem _ inRest)⟩
          rw [if_neg fun same => apart (.inl same.symm), if_neg fun displaced => apart (.inr displaced)]
          exact here
    · rw [step_absent libs pool recurse present] at moved
      cases moved
      obtain ⟨sameDesc, sorted, held⟩ := inductionHypothesis folded ordered
      refine ⟨sameDesc, sorted, ?_⟩
      intro number value
      rw [held]
      constructor
      · rintro (⟨field, jv, kept, rest⟩ | ⟨here, last⟩)
        · exact .inl ⟨field, jv, kept_cons.mpr (.inr kept), rest⟩
        · refine .inr ⟨here, ?_⟩
          intro later inside isPresent
          rcases List.mem_cons.mp inside with rfl | inRest
          · exact (present isPresent).elim
          · exact last later inRest isPresent
      · rintro (⟨field, jv, kept, rest⟩ | ⟨here, last⟩)
        · rcases kept_cons.mp kept with ⟨rfl, member, notNull, _⟩ | later
          · exact (present ⟨jv, member, notNull⟩).elim
          · exact .inl ⟨field, jv, later, rest⟩
        · exact .inr ⟨here, fun later inRest => last later (List.mem_cons_of_mem _ inRest)⟩

/-- Every member of an object that is read as a whole is read. -/
theorem fold_reads {msg final : DynamicMessage}
    (folded : fields.foldlM (jsonToFieldStep libs pool opts recurse map depth) msg = .ok final)
    {field : FieldDescriptorProto} (inside : field ∈ fields) {jv : Json}
    (member : memberOf opts map field = some jv) (present : jv ≠ .null) :
    ∃ value, jsonToField libs pool opts recurse field jv depth = .ok value := by
  induction fields generalizing msg with
  | nil => cases inside
  | cons head rest inductionHypothesis =>
    rw [List.foldlM_cons, Outcome.bind_eq_ok] at folded
    obtain ⟨next, moved, folded⟩ := folded
    rcases List.mem_cons.mp inside with rfl | inRest
    · rw [step_present libs pool recurse member present, Outcome.bind_eq_ok] at moved
      obtain ⟨value, read, _⟩ := moved
      exact ⟨value, read⟩
    · exact inductionHypothesis folded inRest

end Fold

end TptProto.Json
