import TptProto.Foundation.Outcome

/-! Limits on how deep a computation may nest: weighted paths, computations that only one error
can refuse, and computations that never fail with errors of one kind. -/

namespace TptProto.Foundation

universe u v

section Paths

variable {Node : Type u} {Opens : Node → Nat → Node → Prop} {limit depth : Nat}
  {source middle target : Node}

/-- Steps one after another, with the sum of their weights. -/
inductive Descent (Opens : Node → Nat → Node → Prop) : Node → Nat → Node → Prop where
  | here (node : Node) : Descent Opens node 0 node
  | step {source middle target : Node} {weight rest : Nat} (opens : Opens source weight middle)
      (later : Descent Opens middle rest target) : Descent Opens source (weight + rest) target

/-- From a node at this depth, no path goes below the limit. -/
def Within (Opens : Node → Nat → Node → Prop) (limit : Nat) (source : Node) (depth : Nat) : Prop :=
  ∀ weight target, Descent Opens source weight target → depth + weight ≤ limit

theorem within_iff : Within Opens limit source depth ↔
    depth ≤ limit ∧ ∀ weight middle, Opens source weight middle →
      Within Opens limit middle (depth + weight) := by
  constructor
  · intro within
    refine ⟨within 0 source (.here source), ?_⟩
    intro weight middle opens rest target later
    rw [Nat.add_assoc]
    exact within _ _ (.step opens later)
  · rintro ⟨here, each⟩ weight target path
    cases path with
    | here => exact here
    | step opens later =>
      rw [← Nat.add_assoc]
      exact each _ _ opens _ _ later

theorem Within.here (within : Within Opens limit source depth) : depth ≤ limit :=
  (within_iff.mp within).1

theorem Within.opens (within : Within Opens limit source depth) {weight : Nat}
    (opens : Opens source weight middle) : Within Opens limit middle (depth + weight) :=
  (within_iff.mp within).2 weight middle opens

/-- A node that opens nothing is within the limit wherever it is itself. -/
theorem within_leaf (leaf : ∀ weight middle, ¬ Opens source weight middle) :
    Within Opens limit source depth ↔ depth ≤ limit := by
  rw [within_iff]
  exact and_iff_left fun weight middle opens => (leaf weight middle opens).elim

/-- Everything that is reached from the node has the property. -/
def Everywhere (Opens : Node → Nat → Node → Prop) (Good : Node → Prop) (source : Node) : Prop :=
  ∀ weight target, Descent Opens source weight target → Good target

theorem Everywhere.here {Good : Node → Prop} (everywhere : Everywhere Opens Good source) :
    Good source :=
  everywhere 0 source (.here source)

theorem Everywhere.opens {Good : Node → Prop} (everywhere : Everywhere Opens Good source)
    {weight : Nat} (opens : Opens source weight middle) : Everywhere Opens Good middle :=
  fun _ target later => everywhere _ target (.step opens later)

end Paths

namespace Outcome

variable {ε ε' : Type u} {α β σ : Type v} {refusal : ε} {fits : Prop}

/-- The computation gives a value if the condition holds, and else this one error. -/
structure Decides (refusal : ε) (fits : Prop) (x : Outcome ε α) : Prop where
  ok : fits → ∃ value, x = .ok value
  refused : ¬ fits → x = .err refusal

theorem Decides.of_ok {x : Outcome ε α} (computed : ∃ value, x = .ok value) (holds : fits) :
    Decides refusal fits x :=
  ⟨fun _ => computed, fun fails => (fails holds).elim⟩

theorem Decides.of_iff {other : Prop} {x : Outcome ε α} (decides : Decides refusal fits x)
    (same : fits ↔ other) : Decides refusal other x :=
  ⟨fun holds => decides.ok (same.mpr holds), fun fails => decides.refused (mt same.mp fails)⟩

theorem Decides.map {x : Outcome ε α} (decides : Decides refusal fits x) (f : α → β) :
    Decides refusal fits (x.map f) := by
  constructor
  · intro holds
    obtain ⟨value, rfl⟩ := decides.ok holds
    exact ⟨f value, rfl⟩
  · intro fails
    rw [decides.refused fails]
    rfl

/-- What follows adds to a value, and refuses nothing. -/
theorem Decides.bind {x : Outcome ε α} (decides : Decides refusal fits x) {f : α → Outcome ε β}
    (adds : ∀ value, ∃ result, f value = .ok result) : Decides refusal fits (x >>= f) := by
  constructor
  · intro holds
    obtain ⟨value, rfl⟩ := decides.ok holds
    exact adds value
  · intro fails
    rw [decides.refused fails]
    rfl

/-- A list is read by reading its head and then its tail. -/
theorem mapM_cons_eq_ok {read : α → Outcome ε β} {value : α} {rest : List α} {parts : List β} :
    (value :: rest).mapM read = .ok parts ↔
      ∃ part, read value = .ok part ∧ ∃ others, rest.mapM read = .ok others ∧ parts = part :: others := by
  simp only [List.mapM_cons, bind_eq_ok, pure_eq, ok.injEq]
  refine exists_congr fun part => and_congr_right fun _ => exists_congr fun others => ?_
  exact and_congr_right fun _ => eq_comm

section Lists

variable {fit : α → Prop} {read : α → Outcome ε β} {values : List α}

/-- A list of computations, each of which is refused if its own condition fails. -/
private theorem decides_cons {value : α} {rest : List α} {γ δ : Type v} {x : Outcome ε γ}
    {f : γ → Outcome ε δ} (head : Decides refusal (fit value) x)
    (later : ∀ part, Decides refusal (∀ other ∈ rest, fit other) (f part)) :
    Decides refusal (∀ other ∈ value :: rest, fit other) (x >>= f) := by
  constructor
  · intro holds
    obtain ⟨part, here⟩ := head.ok (holds value List.mem_cons_self)
    rw [here]
    exact (later part).ok fun other member => holds other (List.mem_cons_of_mem _ member)
  · intro fails
    by_cases fitsHere : fit value
    · obtain ⟨part, here⟩ := head.ok fitsHere
      rw [here]
      refine (later part).refused ?_
      intro all
      apply fails
      intro other member
      rcases List.mem_cons.mp member with rfl | inside
      · exact fitsHere
      · exact all other inside
    · rw [head.refused fitsHere]
      rfl

theorem decides_foldlM {f : σ → α → Outcome ε σ}
    (each : ∀ state, ∀ value ∈ values, Decides refusal (fit value) (f state value)) (start : σ) :
    Decides refusal (∀ value ∈ values, fit value) (values.foldlM f start) := by
  induction values generalizing start with
  | nil => exact .of_ok ⟨start, rfl⟩ nofun
  | cons value rest inductionHypothesis =>
    rw [List.foldlM_cons]
    refine decides_cons (each start value List.mem_cons_self) ?_
    intro next
    exact inductionHypothesis (fun state other member =>
      each state other (List.mem_cons_of_mem _ member)) next

/-- A fold over what was read from a list, where the conditions are on the list. -/
theorem decides_foldlM_read {f : σ → β → Outcome ε σ} {parts : List β}
    (isRead : values.mapM read = .ok parts)
    (each : ∀ state, ∀ value ∈ values, ∀ part, read value = .ok part →
      Decides refusal (fit value) (f state part)) (start : σ) :
    Decides refusal (∀ value ∈ values, fit value) (parts.foldlM f start) := by
  induction values generalizing parts start with
  | nil =>
    cases isRead
    exact .of_ok ⟨start, rfl⟩ nofun
  | cons value rest inductionHypothesis =>
    obtain ⟨part, here, others, tail, rfl⟩ := mapM_cons_eq_ok.mp isRead
    rw [List.foldlM_cons]
    refine decides_cons (each start value List.mem_cons_self part here) ?_
    intro next
    exact inductionHypothesis tail (fun state other member =>
      each state other (List.mem_cons_of_mem _ member)) next

/-- Likewise for what is made of each part. -/
theorem decides_mapM_read {γ : Type v} {f : β → Outcome ε γ} {parts : List β}
    (isRead : values.mapM read = .ok parts)
    (each : ∀ value ∈ values, ∀ part, read value = .ok part →
      Decides refusal (fit value) (f part)) :
    Decides refusal (∀ value ∈ values, fit value) (parts.mapM f) := by
  induction values generalizing parts with
  | nil =>
    cases isRead
    exact .of_ok ⟨[], rfl⟩ nofun
  | cons value rest inductionHypothesis =>
    obtain ⟨part, here, others, tail, rfl⟩ := mapM_cons_eq_ok.mp isRead
    rw [List.mapM_cons]
    refine decides_cons (each value List.mem_cons_self part here) ?_
    intro next
    refine (inductionHypothesis tail fun other member =>
      each other (List.mem_cons_of_mem _ member)).bind ?_
    intro made
    exact ⟨next :: made, rfl⟩

end Lists

/-- The computation does not fail with an error of a kind. -/
def Avoids (Bad : ε → Prop) (x : Outcome ε α) : Prop := ∀ error, x = .err error → ¬ Bad error

section Avoids

variable {Bad : ε → Prop}

theorem Avoids.ok (value : α) : Avoids Bad (.ok value) := nofun

theorem Avoids.err {error : ε} (good : ¬ Bad error) : Avoids Bad (.err error : Outcome ε α) := by
  rintro _ ⟨⟩
  exact good

theorem Avoids.ofOption {error : ε} (good : ¬ Bad error) (x : Option α) :
    Avoids Bad (ofOption error x) := by
  cases x with
  | none => exact .err good
  | some value => exact .ok value

theorem Avoids.bind {x : Outcome ε α} {f : α → Outcome ε β} (head : Avoids Bad x)
    (tail : ∀ value, x = .ok value → Avoids Bad (f value)) : Avoids Bad (x >>= f) := by
  cases x with
  | ok value => exact tail value rfl
  | err error =>
    rintro _ ⟨⟩
    exact head error rfl
  | panic | outOfFuel => exact nofun

theorem Avoids.map {x : Outcome ε α} (avoids : Avoids Bad x) (f : α → β) : Avoids Bad (x.map f) := by
  cases x with
  | ok value => exact .ok _
  | err error =>
    rintro _ ⟨⟩
    exact avoids error rfl
  | panic | outOfFuel => exact nofun

theorem Avoids.mapErr {convert : ε' → ε} (good : ∀ error, ¬ Bad (convert error))
    (x : Outcome ε' α) : Avoids Bad (mapErr convert x) := by
  cases x with
  | ok value => exact .ok value
  | err error => exact .err (good error)
  | panic | outOfFuel => exact nofun

theorem avoids_mapM {f : α → Outcome ε β} {values : List α}
    (each : ∀ value ∈ values, Avoids Bad (f value)) : Avoids Bad (values.mapM f) := by
  induction values with
  | nil => exact .ok []
  | cons value rest inductionHypothesis =>
    rw [List.mapM_cons]
    refine (each value List.mem_cons_self).bind fun part _ => ?_
    refine (inductionHypothesis fun other member =>
      each other (List.mem_cons_of_mem _ member)).bind fun parts _ => ?_
    exact .ok _

theorem avoids_foldlM {f : σ → α → Outcome ε σ} {values : List α}
    (each : ∀ state, ∀ value ∈ values, Avoids Bad (f state value)) (start : σ) :
    Avoids Bad (values.foldlM f start) := by
  induction values generalizing start with
  | nil => exact .ok start
  | cons value rest inductionHypothesis =>
    rw [List.foldlM_cons]
    refine (each start value List.mem_cons_self).bind fun next _ => ?_
    exact inductionHypothesis (fun state other member =>
      each state other (List.mem_cons_of_mem _ member)) next

end Avoids

end Outcome

end TptProto.Foundation
