/-! Frames that open further frames: which are reached from a root, and how many are
open at once on a path from it. -/

namespace TptProto.Foundation

universe u

variable {Frame : Type u} {Opens : Frame → Frame → Prop} {root : Frame}

inductive Reached (Opens : Frame → Frame → Prop) (root : Frame) : Frame → Prop where
  | root : Reached Opens root root
  | child {parent child : Frame} (reached : Reached Opens root parent) (opens : Opens parent child) :
      Reached Opens root child

/-- Frames open at once below a frame, outermost first. -/
inductive Nest (Opens : Frame → Frame → Prop) : Frame → List Frame → Prop where
  | none {frame : Frame} : Nest Opens frame []
  | one {parent child : Frame} {rest : List Frame} (opens : Opens parent child)
      (inner : Nest Opens child rest) : Nest Opens parent (child :: rest)

theorem Reached.invariant {frame : Frame} (reached : Reached Opens root frame) (Holds : Frame → Prop)
    (start : Holds root)
    (keep : ∀ parent child, Holds parent → Reached Opens root parent → Opens parent child →
      Holds child) : Holds frame := by
  induction reached with
  | root => exact start
  | child reached opens ih => exact keep _ _ ih reached opens

/-- What passes from a frame to the one that opened it passes up to the root. -/
theorem Reached.lift {frame : Frame} (reached : Reached Opens root frame) {Holds : Frame → Prop}
    (up : ∀ parent child, Reached Opens root parent → Opens parent child → Holds child → Holds parent)
    (here : Holds frame) : Holds root := by
  induction reached with
  | root => exact here
  | child reached opens ih => exact ih (up _ _ reached opens here)

/-- Frames one level above their opener and below a limit are at most as many as the levels. -/
theorem Nest.length_le {level : Frame → Nat} {limit : Nat}
    (rises : ∀ parent child, Reached Opens root parent → Opens parent child →
      level child = level parent + 1 ∧ level child ≤ limit)
    {frame : Frame} {frames : List Frame} (nest : Nest Opens frame frames)
    (reached : Reached Opens root frame) : frames.length ≤ limit - level frame := by
  induction nest with
  | none => exact Nat.zero_le _
  | one opens _ ih =>
    have bound := ih (.child reached opens)
    obtain ⟨next, below⟩ := rises _ _ reached opens
    simp only [List.length_cons]
    omega

end TptProto.Foundation
