import TptProto.Core.Chunks
import TptProto.Core.Unknown
import TptProto.Foundation.Nesting

/-! The nesting of decoders: frames are readers over nested bodies, and the recursion
limit holds along every path exactly when each child continues its parent's budget. -/

namespace TptProto.Core

open TptProto.Foundation

/-- How an arm builds the reader of a nested body. -/
inductive Opening where
  | nested
  | fresh
  deriving DecidableEq, Repr

/-- `r.nested(body)?`, or `Reader::new(body)`. -/
def Opening.open (opening : Opening) (r : Reader) (body : Slice) : Result Reader :=
  match opening with
  | .nested => r.nested body
  | .fresh => .ok (Reader.new body)

/-- A cursor from which nothing has been read. -/
structure Reader.AtStart (r : Reader) : Prop where
  pos : r.pos = 0
  bytesRead : r.bytesRead = 0
  fieldCount : r.fieldCount = 0

theorem Reader.AtStart.solvent {r : Reader} (start : r.AtStart) : r.Solvent where
  tracked := ⟨by rw [start.bytesRead]; exact Nat.zero_le _, by rw [start.fieldCount]; exact Nat.zero_le _⟩
  bytes := by rw [start.bytesRead]; exact DecoderLimits.within_zero _
  fields := by rw [start.fieldCount]; exact DecoderLimits.within_zero _

theorem Reader.withLimits_atStart (buf : Slice) (limits : DecoderLimits) :
    (Reader.withLimits buf limits).AtStart := ⟨rfl, rfl, rfl⟩

theorem Opening.open_buf {opening : Opening} {r sub : Reader} {body : Slice}
    (opened : opening.open r body = .ok sub) : sub.buf = body := by
  cases opening with
  | nested =>
    obtain ⟨_, rfl⟩ := Reader.nested_eq_ok_iff.mp opened
    rfl
  | fresh =>
    cases opened
    rfl

theorem Opening.atStart {opening : Opening} {r sub : Reader} {body : Slice}
    (opened : opening.open r body = .ok sub) : sub.AtStart := by
  cases opening with
  | nested =>
    obtain ⟨_, rfl⟩ := Reader.nested_eq_ok_iff.mp opened
    exact ⟨rfl, rfl, rfl⟩
  | fresh =>
    cases opened
    exact ⟨rfl, rfl, rfl⟩

/-- A reader and the kind of message decoded from it. -/
structure NestFrame (Kind : Type) where
  kind : Kind
  reader : Reader

/-- A family of decoders. `Extracts` holds of a nested body that a decoder has read and is
about to open; a decode `Fails` when it returns the depth error. -/
structure Nesting where
  Kind : Type
  Extracts : NestFrame Kind → Opening → Reader → Slice → Kind → Prop
  Fails : NestFrame Kind → Prop
  kept : ∀ {parent opening r body kind}, Extracts parent opening r body kind →
    Reader.Kept parent.reader r
  refused : ∀ {parent opening r body kind}, parent.reader.AtStart →
    Extracts parent opening r body kind → opening.open r body = .err .depthLimitExceeded →
    Fails parent
  passed : ∀ {parent opening r body kind sub}, parent.reader.AtStart →
    Extracts parent opening r body kind → opening.open r body = .ok sub → Fails ⟨kind, sub⟩ →
    Fails parent

namespace Nesting

variable (N : Nesting)

/-- The child is over a body the parent extracts. -/
def Opens (parent child : NestFrame N.Kind) : Prop :=
  ∃ opening r body, N.Extracts parent opening r body child.kind ∧
    opening.open r body = .ok child.reader

/-- The recursion limit holds in every run from the root. -/
structure DepthBounded (root : NestFrame N.Kind) : Prop where
  inherits : ∀ parent child, Reached N.Opens root parent → N.Opens parent child →
    child.reader.limits = parent.reader.limits ∧
      child.reader.depth.toNat = parent.reader.depth.toNat + 1
  bounded : ∀ frames, Nest N.Opens root frames → frames.length ≤ root.reader.limits.maxDepth.toNat
  rejected : ∀ parent opening r body kind, Reached N.Opens root parent →
    N.Extracts parent opening r body kind →
    parent.reader.depth.toNat = root.reader.limits.maxDepth.toNat → N.Fails root

/-- Every body met is opened as a nested one, from a depth that can be counted up. -/
def Continues (root : NestFrame N.Kind) : Prop :=
  ∀ parent opening r body kind, Reached N.Opens root parent →
    N.Extracts parent opening r body kind →
    opening = .nested ∧ parent.reader.depth.toNat + 1 < 2 ^ 32

/-- No body is met in a frame of the given kinds, nor at the last depth that can be counted. -/
def Avoids (resets : N.Kind → Prop) (root : NestFrame N.Kind) : Prop :=
  ∀ parent opening r body kind, Reached N.Opens root parent →
    N.Extracts parent opening r body kind →
    ¬ resets parent.kind ∧ parent.reader.depth.toNat + 1 < 2 ^ 32

variable {N} {root : NestFrame N.Kind}

/-- Where some kinds open fresh readers and the others nested ones. -/
theorem continues_iff_avoids {resets : N.Kind → Prop}
    (which : ∀ parent opening r body kind, N.Extracts parent opening r body kind →
      (opening = .nested ↔ ¬ resets parent.kind)) : N.Continues root ↔ N.Avoids resets root := by
  simp only [Continues, Avoids]
  constructor
  · intro all parent opening r body kind reached extracts
    obtain ⟨nested, counted⟩ := all _ _ _ _ _ reached extracts
    exact ⟨(which _ _ _ _ _ extracts).mp nested, counted⟩
  · intro all parent opening r body kind reached extracts
    obtain ⟨keeps, counted⟩ := all _ _ _ _ _ reached extracts
    exact ⟨(which _ _ _ _ _ extracts).mpr keeps, counted⟩

theorem atStart_of_reached (start : root.reader.AtStart) {frame : NestFrame N.Kind}
    (reached : Reached N.Opens root frame) : frame.reader.AtStart :=
  reached.invariant (fun frame => frame.reader.AtStart) start
    fun _ _ _ _ ⟨_, _, _, _, opened⟩ => Opening.atStart opened

theorem fails_of_reached (start : root.reader.AtStart) {frame : NestFrame N.Kind}
    (reached : Reached N.Opens root frame) (fails : N.Fails frame) : N.Fails root := by
  refine reached.lift (fun parent child reached opens fails => ?_) fails
  obtain ⟨_, _, _, extracts, opened⟩ := opens
  exact N.passed (atStart_of_reached start reached) extracts opened fails

/-- A child opened from a depth that can be counted up continues its parent. -/
theorem Continues.inherits (continues : N.Continues root) {parent child : NestFrame N.Kind}
    (reached : Reached N.Opens root parent) (opens : N.Opens parent child) :
    child.reader.limits = parent.reader.limits ∧
      child.reader.depth.toNat = parent.reader.depth.toNat + 1 ∧
      child.reader.depth ≤ parent.reader.limits.maxDepth := by
  obtain ⟨opening, r, body, extracts, opened⟩ := opens
  obtain ⟨rfl, counted⟩ := continues _ _ _ _ _ reached extracts
  have kept := N.kept extracts
  obtain ⟨within, same⟩ := Reader.nested_eq_ok_iff.mp opened
  rw [same]
  rw [kept.depth, kept.limits] at within
  refine ⟨kept.limits, ?_, ?_⟩
  · change (r.depth + 1).toNat = _
    rw [kept.depth, UInt32.toNat_add]
    simp only [UInt32.toNat_one]
    omega
  · change r.depth + 1 ≤ _
    rwa [kept.depth]

theorem Continues.limits_eq (continues : N.Continues root) {frame : NestFrame N.Kind}
    (reached : Reached N.Opens root frame) : frame.reader.limits = root.reader.limits :=
  reached.invariant (fun frame => frame.reader.limits = root.reader.limits) rfl
    fun _ _ same reached opens => (continues.inherits reached opens).1.trans same

/-- The limit holds on every path exactly when every child continues its parent. -/
theorem depthBounded_iff (start : root.reader.AtStart) :
    N.DepthBounded root ↔ N.Continues root := by
  constructor
  · intro bounded parent opening r body kind reached extracts
    have kept := N.kept extracts
    cases opening with
    | fresh =>
      have opens : N.Opens parent ⟨kind, Reader.new body⟩ := ⟨_, r, body, extracts, rfl⟩
      have depth := (bounded.inherits parent _ reached opens).2
      simp [Reader.new, Reader.withLimits] at depth
    | nested =>
      refine ⟨rfl, Nat.lt_of_not_le fun large => ?_⟩
      have last := parent.reader.depth.toNat_lt
      have wraps : r.depth + 1 = 0 := by
        rw [kept.depth, ← UInt32.toNat_inj, UInt32.toNat_add, UInt32.toNat_one]
        simp only [UInt32.toNat_zero]
        omega
      have opens : N.Opens parent ⟨kind, r.child body⟩ :=
        ⟨_, r, body, extracts, Reader.nested_eq_ok_iff.mpr ⟨by rw [wraps]; simp, rfl⟩⟩
      have depth := (bounded.inherits parent _ reached opens).2
      change (r.depth + 1).toNat = _ at depth
      rw [wraps] at depth
      simp at depth
  · intro continues
    refine ⟨fun parent child reached opens => ?_, fun frames nest => ?_,
      fun parent opening r body kind reached extracts deepest => ?_⟩
    · obtain ⟨limits, depth, _⟩ := continues.inherits reached opens
      exact ⟨limits, depth⟩
    · have rises : ∀ parent child, Reached N.Opens root parent → N.Opens parent child →
          child.reader.depth.toNat = parent.reader.depth.toNat + 1 ∧
            child.reader.depth.toNat ≤ root.reader.limits.maxDepth.toNat := by
        intro parent child reached opens
        obtain ⟨_, depth, within⟩ := continues.inherits reached opens
        rw [continues.limits_eq reached] at within
        exact ⟨depth, UInt32.le_iff_toNat_le.mp within⟩
      exact Nat.le_trans (nest.length_le rises .root) (Nat.sub_le _ _)
    · obtain ⟨rfl, counted⟩ := continues _ _ _ _ _ reached extracts
      have kept := N.kept extracts
      refine fails_of_reached start reached
        (N.refused (atStart_of_reached start reached) extracts ?_)
      refine if_pos (UInt32.lt_iff_toNat_lt.mpr ?_)
      rw [kept.limits, continues.limits_eq reached, kept.depth, UInt32.toNat_add, UInt32.toNat_one]
      omega

end Nesting

end TptProto.Core
