import Mathlib.Data.List.Nodup
import Mathlib.Order.Lattice

/-! Sorting by keys that are all different, which forgets the order there was before. -/

namespace TptProto.Foundation.Sorting

variable {α κ : Type} [LinearOrder κ]

/-- Two orders that agree on a list sort it alike. -/
theorem mergeSort_congr {items : List α} {r s : α → α → Bool}
    (agree : ∀ a ∈ items, ∀ b ∈ items, r a b = s a b) : items.mergeSort r = items.mergeSort s := by
  have mapped := @List.map_mergeSort _ _ r s id items agree
  rwa [List.map_id, List.map_id] at mapped

/-- Items with different keys are sorted into one order, wherever they stood. -/
theorem mergeSort_of_perm (key : α → κ) {items others : List α} (perm : items.Perm others)
    (distinct : (items.map key).Nodup) :
    items.mergeSort (fun a b => decide (key a ≤ key b)) =
      others.mergeSort (fun a b => decide (key a ≤ key b)) := by
  have sorted (l : List α) :
      (l.mergeSort fun a b => decide (key a ≤ key b)).Pairwise fun a b => key a ≤ key b := by
    refine (List.pairwise_mergeSort (fun a b c first second => ?_) (fun a b => ?_) l).imp
      of_decide_eq_true
    · exact decide_eq_true (le_trans (of_decide_eq_true first) (of_decide_eq_true second))
    · rw [Bool.or_eq_true, decide_eq_true_eq, decide_eq_true_eq]
      exact le_total _ _
  refine List.Perm.eq_of_pairwise ?_ (sorted items) (sorted others)
    ((List.mergeSort_perm _ _).trans (perm.trans (List.mergeSort_perm _ _).symm))
  intro a b inItems inOthers below above
  have inside := List.mem_mergeSort.mp inItems
  have inside' := perm.mem_iff.mpr (List.mem_mergeSort.mp inOthers)
  exact List.inj_on_of_nodup_map distinct inside inside' (le_antisymm below above)

end TptProto.Foundation.Sorting
