import Mathlib.Logic.Relation

/-! Depth-first search with nodes in progress, finished nodes in finishing order, and
the nodes met again while in progress. The last list is empty exactly on acyclic graphs. -/

namespace TptProto.Foundation.DepthFirst

universe u

variable {ν : Type u} [DecidableEq ν]

/-- The marks of a search. The newest node comes first in both lists of nodes. -/
structure Marks (ν : Type u) where
  active : List ν := []
  finished : List ν := []
  hits : List ν := []

/-- Visit a node, with a bound on the depth. -/
def visit (succ : ν → List ν) : Nat → ν → Marks ν → Option (Marks ν)
  | fuel, n, s =>
    if n ∈ s.finished then some s
    else if n ∈ s.active then some { s with hits := s.hits ++ [n] }
    else match fuel with
      | 0 => none
      | fuel + 1 => do
        let inner ← (succ n).foldlM (fun s m => visit succ fuel m s) { s with active := n :: s.active }
        some { inner with active := s.active, finished := n :: inner.finished }

abbrev visitAll (succ : ν → List ν) (fuel : Nat) (ms : List ν) (s : Marks ν) : Option (Marks ν) :=
  ms.foldlM (fun s m => visit succ fuel m s) s

variable {succ : ν → List ν} {fuel : Nat} {n : ν} {s s' : Marks ν}

/-- What a visit keeps and adds. -/
structure Grows (s s' : Marks ν) : Prop where
  active : s'.active = s.active
  finished : ∃ added, s'.finished = added ++ s.finished
  hits : ∃ added, s'.hits = s.hits ++ added

omit [DecidableEq ν] in
theorem Grows.refl (s : Marks ν) : Grows s s := ⟨rfl, ⟨[], rfl⟩, ⟨[], by simp⟩⟩

omit [DecidableEq ν] in
theorem Grows.trans {s₁ s₂ s₃ : Marks ν} (first : Grows s₁ s₂) (second : Grows s₂ s₃) :
    Grows s₁ s₃ := by
  obtain ⟨finished, same⟩ := first.finished
  obtain ⟨finished', same'⟩ := second.finished
  obtain ⟨hits, sameHits⟩ := first.hits
  obtain ⟨hits', sameHits'⟩ := second.hits
  exact ⟨second.active.trans first.active,
    ⟨finished' ++ finished, by rw [same', same, List.append_assoc]⟩,
    ⟨hits ++ hits', by rw [sameHits', sameHits, List.append_assoc]⟩⟩

omit [DecidableEq ν] in
theorem Grows.mem_finished (grows : Grows s s') {m : ν} (member : m ∈ s.finished) :
    m ∈ s'.finished := by
  obtain ⟨_, same⟩ := grows.finished
  rw [same]
  exact List.mem_append_right _ member

omit [DecidableEq ν] in
theorem Grows.hits_nil (grows : Grows s s') (none : s'.hits = []) : s.hits = [] := by
  obtain ⟨_, same⟩ := grows.hits
  rw [same] at none
  exact (List.append_eq_nil_iff.mp none).1

/-- A successful fold of visits preserves what each visit preserves. -/
private theorem visitAll_induct {ms : List ν} (Holds : Marks ν → Prop)
    (step : ∀ m ∈ ms, ∀ s s', Holds s → visit succ fuel m s = some s' → Holds s') :
    ∀ {s s'}, Holds s → visitAll succ fuel ms s = some s' → Holds s' := by
  induction ms with
  | nil =>
    intro s s' held run
    cases run
    exact held
  | cons m rest ih =>
    intro s s' held run
    rw [visitAll, List.foldlM_cons, Option.bind_eq_bind, Option.bind_eq_some_iff] at run
    obtain ⟨next, moved, run⟩ := run
    exact ih (fun m member => step m (List.mem_cons_of_mem _ member))
      (step m List.mem_cons_self _ _ held moved) run

/-- The three ways a visit can go. -/
theorem visit_cases (run : visit succ fuel n s = some s') :
    (n ∈ s.finished ∧ s' = s) ∨
    (n ∈ s.active ∧ n ∉ s.finished ∧ s' = { s with hits := s.hits ++ [n] }) ∨
    (n ∉ s.active ∧ n ∉ s.finished ∧ ∃ less inner, fuel = less + 1 ∧
      visitAll succ less (succ n) { s with active := n :: s.active } = some inner ∧
      s' = { inner with active := s.active, finished := n :: inner.finished }) := by
  unfold visit at run
  split at run
  · rename_i finished
    cases run
    exact .inl ⟨finished, rfl⟩
  · rename_i finished
    split at run
    · rename_i active
      cases run
      exact .inr (.inl ⟨active, finished, rfl⟩)
    · rename_i active
      cases fuel with
      | zero => cases run
      | succ less =>
        simp only [Option.bind_eq_bind, Option.bind_eq_some_iff, Option.some.injEq] at run
        obtain ⟨inner, fold, rfl⟩ := run
        exact .inr (.inr ⟨active, finished, less, inner, rfl, fold, rfl⟩)

/-- Met again, a node is noted at most. -/
theorem visit_met (met : n ∈ s.active ∨ n ∈ s.finished) :
    ∃ hits, visit succ fuel n s = some { s with hits := hits } := by
  unfold visit
  by_cases finished : n ∈ s.finished
  · exact ⟨s.hits, by rw [if_pos finished]⟩
  · exact ⟨s.hits ++ [n], by rw [if_neg finished, if_pos (met.resolve_right finished)]⟩

/-- A new node is finished once its successors have been visited. -/
theorem visit_new {inner : Marks ν} (active : n ∉ s.active) (finished : n ∉ s.finished)
    (run : visitAll succ fuel (succ n) { s with active := n :: s.active } = some inner) :
    visit succ (fuel + 1) n s =
      some { inner with active := s.active, finished := n :: inner.finished } := by
  unfold visit
  rw [if_neg finished, if_neg active]
  change (visitAll succ fuel (succ n) _ >>= _) = _
  rw [run]
  rfl

theorem visit_grows (run : visit succ fuel n s = some s') : Grows s s' := by
  induction fuel generalizing n s s' with
  | zero =>
    rcases visit_cases run with ⟨_, rfl⟩ | ⟨_, _, rfl⟩ | ⟨_, _, _, _, impossible, _⟩
    · exact .refl _
    · exact ⟨rfl, ⟨[], rfl⟩, ⟨[n], rfl⟩⟩
    · omega
  | succ fuel ih =>
    rcases visit_cases run with ⟨_, rfl⟩ | ⟨_, _, rfl⟩ | ⟨_, _, less, inner, same, fold, rfl⟩
    · exact .refl _
    · exact ⟨rfl, ⟨[], rfl⟩, ⟨[n], rfl⟩⟩
    · cases same
      have grows := visitAll_induct (Grows { s with active := n :: s.active })
        (fun m _ s s' held moved => held.trans (ih moved)) (.refl _) fold
      obtain ⟨added, finished⟩ := grows.finished
      exact ⟨rfl, ⟨n :: added, by simp [finished]⟩, grows.hits⟩

theorem visitAll_grows {ms : List ν} (run : visitAll succ fuel ms s = some s') : Grows s s' :=
  visitAll_induct (Grows s) (fun _ _ _ _ held moved => held.trans (visit_grows moved)) (.refl _) run

section Terminates

variable {nodes : List ν}

private theorem visitAll_isSome {ms : List ν} {active : List ν}
    (each : ∀ m ∈ ms, ∀ s : Marks ν, s.active = active → (visit succ fuel m s).isSome = true) :
    ∀ {s : Marks ν}, s.active = active → (visitAll succ fuel ms s).isSome = true := by
  induction ms with
  | nil => simp
  | cons m rest ih =>
    intro s same
    obtain ⟨next, moved⟩ := Option.isSome_iff_exists.mp (each m List.mem_cons_self s same)
    rw [visitAll, List.foldlM_cons, moved]
    exact ih (fun m member => each m (List.mem_cons_of_mem _ member))
      ((visit_grows moved).active.trans same)

/-- The nodes in progress are distinct, so their number bounds the depth. -/
theorem visit_isSome (closed : ∀ m ∈ nodes, succ m ⊆ nodes) (member : n ∈ nodes)
    (distinct : s.active.Nodup) (inside : s.active ⊆ nodes)
    (enough : nodes.length ≤ fuel + s.active.length) : (visit succ fuel n s).isSome = true := by
  induction fuel generalizing n s with
  | zero =>
    unfold visit
    split
    · rfl
    · split
      · rfl
      · rename_i fresh
        have longer : (n :: s.active).Nodup := List.nodup_cons.mpr ⟨fresh, distinct⟩
        have bound := longer.length_le_of_subset (List.cons_subset.mpr ⟨member, inside⟩)
        simp only [List.length_cons] at bound
        omega
  | succ fuel ih =>
    unfold visit
    split
    · rfl
    · split
      · rfl
      · rename_i fresh
        have longer : (n :: s.active).Nodup := List.nodup_cons.mpr ⟨fresh, distinct⟩
        have wider := List.cons_subset.mpr ⟨member, inside⟩
        have folded : (visitAll succ fuel (succ n) { s with active := n :: s.active }).isSome = true := by
          refine visitAll_isSome (fun m child s' same => ?_) rfl
          refine ih (closed n member child) (same ▸ longer) (same ▸ wider) ?_
          rw [same, List.length_cons]
          omega
        obtain ⟨inner, fold⟩ := Option.isSome_iff_exists.mp folded
        simp only
        rw [show (succ n).foldlM _ _ = some inner from fold]
        rfl

end Terminates

section Correct

/-- A step of the graph. -/
abbrev Edge (succ : ν → List ν) (a b : ν) : Prop := b ∈ succ a

/-- Every node's successors come after it, and no node comes twice. -/
def Topological (succ : ν → List ν) : List ν → Prop
  | [] => True
  | n :: rest => (∀ m ∈ succ n, m ∈ rest) ∧ n ∉ rest ∧ Topological succ rest

omit [DecidableEq ν] in
theorem Topological.closed {order : List ν} (topological : Topological succ order) {a b : ν}
    (member : a ∈ order) (edge : Edge succ a b) : b ∈ order := by
  induction order with
  | nil => simp at member
  | cons n rest ih =>
    rcases List.mem_cons.mp member with rfl | later
    · exact List.mem_cons_of_mem _ (topological.1 b edge)
    · exact List.mem_cons_of_mem _ (ih topological.2.2 later)

omit [DecidableEq ν] in
theorem Topological.split {before after : List ν} {n : ν}
    (topological : Topological succ (before ++ n :: after)) : ∀ m ∈ succ n, m ∈ after := by
  induction before with
  | nil => exact topological.1
  | cons _ _ ih => exact ih topological.2.2

omit [DecidableEq ν] in
/-- No cycle passes through a topological order. -/
theorem Topological.acyclic {order : List ν} (topological : Topological succ order) {a : ν}
    (member : a ∈ order) : ¬ Relation.TransGen (Edge succ) a a := by
  induction order with
  | nil => simp at member
  | cons n rest ih =>
    rcases List.mem_cons.mp member with rfl | later
    · intro cycle
      obtain ⟨m, edge, path⟩ := Relation.TransGen.head'_iff.mp cycle
      have stays : ∀ b, Relation.ReflTransGen (Edge succ) m b → b ∈ rest := by
        intro b path
        induction path with
        | refl => exact topological.1 m edge
        | tail _ edge ih => exact topological.2.2.closed ih edge
      exact topological.2.1 (stays a path)
    · exact ih topological.2.2 later

/-- What holds between visits. The nodes in progress lead to the newest of them. -/
structure Inv (succ : ν → List ν) (s : Marks ν) : Prop where
  path : ∀ m ∈ s.active, ∀ newest, s.active.head? = some newest →
    Relation.ReflTransGen (Edge succ) m newest
  disjoint : ∀ m ∈ s.active, m ∉ s.finished
  sound : s.hits ≠ [] → ∃ m, Relation.TransGen (Edge succ) m m
  order : s.hits = [] → Topological succ s.finished

/-- The node to visit follows from the newest node in progress. -/
def Follows (succ : ν → List ν) (s : Marks ν) (n : ν) : Prop :=
  ∀ newest, s.active.head? = some newest → Edge succ newest n

omit [DecidableEq ν] in
theorem Inv.enter (inv : Inv succ s) (follows : Follows succ s n) (active : n ∉ s.active)
    (finished : n ∉ s.finished) : Inv succ { s with active := n :: s.active } where
  path := by
    intro m member newest same
    cases same
    rcases List.mem_cons.mp member with rfl | earlier
    · exact .refl
    · cases first : s.active.head? with
      | none => simp [List.head?_eq_none_iff.mp first] at earlier
      | some newest => exact (inv.path m earlier newest first).tail (follows newest first)
  disjoint := by
    intro m member
    rcases List.mem_cons.mp member with rfl | earlier
    · exact finished
    · exact inv.disjoint m earlier
  sound := inv.sound
  order := inv.order

omit [DecidableEq ν] in
theorem Inv.hit (inv : Inv succ s) (follows : Follows succ s n) (active : n ∈ s.active) :
    Inv succ { s with hits := s.hits ++ [n] } where
  path := inv.path
  disjoint := inv.disjoint
  sound := by
    intro _
    cases first : s.active.head? with
    | none => simp [List.head?_eq_none_iff.mp first] at active
    | some newest =>
      exact ⟨n, Relation.TransGen.tail' (inv.path n active newest first) (follows newest first)⟩
  order := by simp

omit [DecidableEq ν] in
theorem Inv.leave {inner : Marks ν} (inv : Inv succ s) (active : n ∉ s.active)
    (inside : Inv succ inner) (same : inner.active = n :: s.active)
    (children : inner.hits = [] → ∀ m ∈ succ n, m ∈ inner.finished) :
    Inv succ { inner with active := s.active, finished := n :: inner.finished } where
  path := inv.path
  disjoint := by
    intro m member
    have left : m ∈ inner.active := by
      rw [same]
      exact List.mem_cons_of_mem _ member
    refine List.not_mem_cons_of_ne_of_not_mem ?_ (inside.disjoint m left)
    rintro rfl
    exact active member
  sound := inside.sound
  order := by
    intro none
    refine ⟨children none, inside.disjoint n ?_, inside.order none⟩
    rw [same]
    exact List.mem_cons_self

private theorem visitAll_inv {ms : List ν}
    (each : ∀ m ∈ ms, ∀ s s' : Marks ν, Inv succ s → Follows succ s m →
      visit succ fuel m s = some s' → Inv succ s' ∧ (s'.hits = [] → m ∈ s'.finished))
    (inv : Inv succ s) (follows : ∀ m ∈ ms, Follows succ s m)
    (run : visitAll succ fuel ms s = some s') :
    Inv succ s' ∧ (s'.hits = [] → ∀ m ∈ ms, m ∈ s'.finished) := by
  induction ms generalizing s with
  | nil =>
    cases run
    exact ⟨inv, by simp⟩
  | cons m rest ih =>
    rw [visitAll, List.foldlM_cons, Option.bind_eq_bind, Option.bind_eq_some_iff] at run
    obtain ⟨next, moved, run⟩ := run
    obtain ⟨invNext, done⟩ := each m List.mem_cons_self s next inv (follows m List.mem_cons_self) moved
    have grows := visitAll_grows run
    have follows' : ∀ m' ∈ rest, Follows succ next m' := by
      intro m' member newest first
      rw [(visit_grows moved).active] at first
      exact follows m' (List.mem_cons_of_mem _ member) newest first
    obtain ⟨inv', finished⟩ :=
      ih (fun m member => each m (List.mem_cons_of_mem _ member)) invNext follows' run
    refine ⟨inv', fun none m' member => ?_⟩
    rcases List.mem_cons.mp member with rfl | later
    · exact grows.mem_finished (done (grows.hits_nil none))
    · exact finished none m' later

theorem visit_inv (inv : Inv succ s) (follows : Follows succ s n)
    (run : visit succ fuel n s = some s') :
    Inv succ s' ∧ (s'.hits = [] → n ∈ s'.finished) := by
  induction fuel generalizing n s s' with
  | zero =>
    rcases visit_cases run with ⟨finished, rfl⟩ | ⟨active, _, rfl⟩ | ⟨_, _, _, _, impossible, _⟩
    · exact ⟨inv, fun _ => finished⟩
    · exact ⟨inv.hit follows active, by simp⟩
    · omega
  | succ fuel ih =>
    rcases visit_cases run with ⟨finished, rfl⟩ | ⟨active, _, rfl⟩ |
      ⟨active, finished, less, inner, same, fold, rfl⟩
    · exact ⟨inv, fun _ => finished⟩
    · exact ⟨inv.hit follows active, by simp⟩
    · cases same
      have children : ∀ m ∈ succ n, Follows succ { s with active := n :: s.active } m := by
        intro m edge newest first
        cases first
        exact edge
      obtain ⟨inside, done⟩ := visitAll_inv (fun _ _ _ _ inv follows moved => ih inv follows moved)
        (inv.enter follows active finished) children fold
      exact ⟨inv.leave active inside (visitAll_grows fold).active done, fun _ => List.mem_cons_self⟩

/-- The search from all nodes of a closed set ends, and meets a node in progress exactly
when the graph has a cycle through the set. -/
theorem visitAll_correct (succ : ν → List ν) (fuel : Nat) (nodes roots : List ν) (closed : ∀ m ∈ nodes, succ m ⊆ nodes)
    (roots_eq : ∀ m, m ∈ roots ↔ m ∈ nodes) (outside : ∀ m, m ∉ nodes → succ m = [])
    (enough : nodes.length ≤ fuel) :
    ∃ s' : Marks ν, visitAll succ fuel roots {} = some s' ∧
      (s'.hits ≠ [] ↔ ∃ m, Relation.TransGen (Edge succ) m m) := by
  have start : Inv succ ({} : Marks ν) := ⟨by simp, by simp, by simp, fun _ => trivial⟩
  have ends : (visitAll succ fuel roots {}).isSome = true := by
    refine visitAll_isSome (fun m member s same => ?_) rfl
    refine visit_isSome closed ((roots_eq m).mp member) ?_ ?_ ?_
    · rw [same]
      exact List.nodup_nil
    · rw [same]
      exact List.nil_subset _
    · rw [same]
      simpa using enough
  obtain ⟨s', run⟩ := Option.isSome_iff_exists.mp ends
  obtain ⟨inv, finished⟩ := visitAll_inv (fun m _ _ _ inv follows moved => visit_inv inv follows moved)
    start (by simp [Follows]) run
  refine ⟨s', run, inv.sound, ?_⟩
  rintro ⟨m, cycle⟩ none
  by_cases member : m ∈ nodes
  · exact (inv.order none).acyclic (finished none m ((roots_eq m).mpr member)) cycle
  · obtain ⟨_, edge, _⟩ := Relation.TransGen.head'_iff.mp cycle
    simp [Edge, outside m member] at edge

end Correct

end TptProto.Foundation.DepthFirst
