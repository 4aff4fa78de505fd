/-! Two versions of a keyed list: what the new one keeps of the old. -/

namespace TptProto.Foundation

universe u v

variable {α : Type u} {κ : Type v} [DecidableEq κ]

/-- The first item of the list that has the key of this one. -/
def counterpart (key : α → κ) (items : List α) (item : α) : Option α :=
  items.find? fun other => key other = key item

theorem counterpart_mem {key : α → κ} {items : List α} {item found : α}
    (match_ : counterpart key items item = some found) : found ∈ items :=
  List.mem_of_find?_eq_some match_

theorem counterpart_key {key : α → κ} {items : List α} {item found : α}
    (match_ : counterpart key items item = some found) : key found = key item := by
  simpa using List.find?_some match_

theorem counterpart_congr {key : α → κ} {items : List α} {item other : α}
    (same : key item = key other) : counterpart key items item = counterpart key items other := by
  rw [counterpart, counterpart, same]

theorem counterpart_isSome {key : α → κ} {items : List α} {item other : α} (member : other ∈ items)
    (same : key other = key item) : ∃ found, counterpart key items item = some found :=
  Option.isSome_iff_exists.mp (List.find?_isSome.mpr ⟨other, member, by simpa using same⟩)

/-- What the new list shares with the old is kept, and it drops no key. -/
structure Evolves (key : α → κ) (Kept : α → α → Prop) (old new : List α) : Prop where
  kept : ∀ n ∈ new, ∀ o, counterpart key old n = some o → Kept o n
  present : ∀ o ∈ old, ∃ n ∈ new, key n = key o

variable {key : α → κ} {First Second Third : α → α → Prop} {a b c : List α}

/-- Between two steps, an item with a counterpart at the start has one in the middle. -/
theorem Evolves.middle (first : Evolves key First a b) (second : Evolves key Second b c) {x z : α}
    (new : z ∈ c) (old : counterpart key a z = some x) :
    ∃ y, counterpart key b z = some y ∧ First x y ∧ Second y z := by
  obtain ⟨between, member, same⟩ := first.present x (counterpart_mem old)
  obtain ⟨y, found⟩ := counterpart_isSome member (same.trans (counterpart_key old))
  refine ⟨y, found, first.kept y (counterpart_mem found) x ?_, second.kept z new y found⟩
  rw [counterpart_congr (counterpart_key found)]
  exact old

/-- Two steps make one exactly where the items found at all three ends do. -/
theorem Evolves.trans_iff (first : Evolves key First a b) (second : Evolves key Second b c) :
    Evolves key Third a c ↔ ∀ z ∈ c, ∀ x, counterpart key a z = some x →
      ∀ y, counterpart key b z = some y → Third x z := by
  constructor
  · intro whole z new x old _ _
    exact whole.kept z new x old
  · intro each
    refine ⟨fun z new x old => ?_, fun x old => ?_⟩
    · obtain ⟨y, between, _⟩ := first.middle second new old
      exact each z new x old y between
    · obtain ⟨y, between, same⟩ := first.present x old
      obtain ⟨z, new, same'⟩ := second.present y between
      exact ⟨z, new, same'.trans same⟩

theorem Evolves.trans (first : Evolves key First a b) (second : Evolves key Second b c)
    (compose : ∀ {x y z}, First x y → Second y z → Third x z) : Evolves key Third a c := by
  refine (first.trans_iff second).mpr fun z new x old y between => ?_
  obtain ⟨y', between', left, right⟩ := first.middle second new old
  exact compose left right

/-- Nothing is added or dropped, and what the lists share is the same. -/
structure Unaltered (key : α → κ) (Same : α → α → Prop) (old new : List α) : Prop where
  same : ∀ n ∈ new, ∃ o, counterpart key old n = some o ∧ Same o n
  present : ∀ o ∈ old, ∃ n ∈ new, key n = key o

/-- The keys of the lists, and what they share. -/
theorem unaltered_iff {Same : α → α → Prop} {old new : List α} : Unaltered key Same old new ↔
    Unaltered key (fun _ _ => True) old new ∧
      ∀ n ∈ new, ∀ o, counterpart key old n = some o → Same o n := by
  constructor
  · intro unaltered
    refine ⟨⟨fun n member => ?_, unaltered.present⟩, fun n member o found => ?_⟩
    · obtain ⟨o, found, _⟩ := unaltered.same n member
      exact ⟨o, found, trivial⟩
    · obtain ⟨o', found', same⟩ := unaltered.same n member
      rw [found'] at found
      exact Option.some.inj found ▸ same
  · rintro ⟨unaltered, each⟩
    refine ⟨fun n member => ?_, unaltered.present⟩
    obtain ⟨o, found, _⟩ := unaltered.same n member
    exact ⟨o, found, each n member o found⟩

/-- A list is unaltered itself if each item is the same as the first of its key. -/
theorem unaltered_self {Same : α → α → Prop} {items : List α} : Unaltered key Same items items ↔
    ∀ n ∈ items, ∀ o, counterpart key items n = some o → Same o n := by
  rw [unaltered_iff]
  refine and_iff_right ⟨fun n member => ?_, fun o member => ⟨o, member, rfl⟩⟩
  obtain ⟨o, found⟩ : ∃ o, counterpart key items n = some o := counterpart_isSome member rfl
  exact ⟨o, found, trivial⟩

end TptProto.Foundation
