import TptProto.Foundation.Outcome

/-! Budgeted `while` loops over an explicit state: one induction for invariants,
one for termination by a decreasing measure, one for enlarging the budget. -/

namespace TptProto.Foundation

universe u v

variable {ε : Type u} {σ : Type v}

/-- `while more s { s = body(s)? }` with a budget of iterations. -/
def loop (more : σ → Bool) (body : σ → Outcome ε σ) : Nat → σ → Outcome ε σ
  | 0, state => if more state then .outOfFuel else .ok state
  | fuel + 1, state => if more state then body state >>= loop more body fuel else .ok state

/-- The states at the loop head, from a start to the state that leaves the loop. -/
inductive Run (more : σ → Bool) (body : σ → Outcome ε σ) : σ → List σ → σ → Prop where
  | done {state : σ} (finished : more state = false) : Run more body state [] state
  | step {state next final : σ} {visited : List σ} (continues : more state = true)
      (moved : body state = .ok next) (rest : Run more body next visited final) :
      Run more body state (state :: visited) final

variable {more : σ → Bool} {body : σ → Outcome ε σ} {state final : σ}

theorem loop_done (finished : more state = false) (fuel : Nat) :
    loop more body fuel state = .ok state := by
  cases fuel <;> simp [loop, finished]

theorem loop_step (continues : more state = true) (fuel : Nat) :
    loop more body (fuel + 1) state = body state >>= loop more body fuel := by
  simp [loop, continues]

theorem Run.finished {visited : List σ} (run : Run more body state visited final) :
    more final = false := by
  induction run with
  | done finished => exact finished
  | step _ _ _ ih => exact ih

/-- A successful loop is a run of at most `fuel` steps, and conversely. -/
theorem loop_eq_ok_iff {fuel : Nat} :
    loop more body fuel state = .ok final ↔
      ∃ visited, Run more body state visited final ∧ visited.length ≤ fuel := by
  constructor
  · intro success
    induction fuel generalizing state with
    | zero =>
      cases continues : more state with
      | true => simp [loop, continues] at success
      | false =>
        simp only [loop_done continues, Outcome.ok.injEq] at success
        subst final
        exact ⟨[], .done continues, Nat.le_refl _⟩
    | succ fuel ih =>
      cases continues : more state with
      | true =>
        rw [loop_step continues, Outcome.bind_eq_ok] at success
        obtain ⟨next, moved, rest⟩ := success
        obtain ⟨visited, run, bound⟩ := ih rest
        exact ⟨state :: visited, .step continues moved run, Nat.succ_le_succ bound⟩
      | false =>
        simp only [loop_done continues, Outcome.ok.injEq] at success
        subst final
        exact ⟨[], .done continues, Nat.zero_le _⟩
  · rintro ⟨visited, run, bound⟩
    induction run generalizing fuel with
    | done finished => exact loop_done finished fuel
    | step continues moved rest ih =>
      cases fuel with
      | zero => simp at bound
      | succ fuel =>
        rw [loop_step continues, moved, Outcome.ok_bind]
        exact ih (Nat.le_of_succ_le_succ bound)

section Finishes

/-- The loop runs from a state to one that it is left in. -/
def Finishes (more : σ → Bool) (body : σ → Outcome ε σ) (state final : σ) : Prop :=
  ∃ visited, Run more body state visited final

theorem finishes_done (finished : more state = false) :
    Finishes more body state final ↔ final = state := by
  constructor
  · rintro ⟨visited, run⟩
    cases run with
    | done _ => rfl
    | step continues _ _ => simp [finished] at continues
  · rintro rfl
    exact ⟨[], .done finished⟩

theorem finishes_step {next : σ} (continues : more state = true) (moved : body state = .ok next) :
    Finishes more body state final ↔ Finishes more body next final := by
  constructor
  · rintro ⟨visited, run⟩
    cases run with
    | done finished => simp [continues] at finished
    | step _ moved' rest =>
      cases moved.symm.trans moved'
      exact ⟨_, rest⟩
  · rintro ⟨visited, run⟩
    exact ⟨_, .step continues moved run⟩

/-- A pass that does not succeed is never left behind. -/
theorem not_finishes (continues : more state = true) (stuck : ∀ next, body state ≠ .ok next) :
    ¬ Finishes more body state final := by
  rintro ⟨visited, run⟩
  cases run with
  | done finished => simp [continues] at finished
  | step _ moved _ => exact stuck _ moved

/-- With a budget that covers a measure the loop is its runs. -/
theorem loop_eq_ok_iff_finishes (measure : σ → Nat)
    (lower : ∀ s s', more s = true → body s = .ok s' → measure s' < measure s) {fuel : Nat}
    (enough : measure state ≤ fuel) :
    loop more body fuel state = .ok final ↔ Finishes more body state final := by
  rw [loop_eq_ok_iff]
  constructor
  · rintro ⟨visited, run, _⟩
    exact ⟨visited, run⟩
  · rintro ⟨visited, run⟩
    refine ⟨visited, run, Nat.le_trans ?_ enough⟩
    induction run with
    | done _ => exact Nat.zero_le _
    | step continues moved _ inductionHypothesis =>
      have below := lower _ _ continues moved
      have rest := inductionHypothesis (by omega)
      simp only [List.length_cons]
      omega

end Finishes

/-- The states at the loop head that a budget allows to visit. -/
def heads (more : σ → Bool) (body : σ → Outcome ε σ) : Nat → σ → List σ
  | 0, _ => []
  | fuel + 1, state =>
    if more state then
      state :: match body state with
        | .ok next => heads more body fuel next
        | _ => []
    else []

/-- A successful loop runs through its head states. -/
theorem run_heads {fuel : Nat} (success : loop more body fuel state = .ok final) :
    Run more body state (heads more body fuel state) final := by
  induction fuel generalizing state with
  | zero =>
    cases continues : more state with
    | true => simp [loop, continues] at success
    | false =>
      rw [loop_done continues] at success
      cases success
      exact .done continues
  | succ fuel ih =>
    cases continues : more state with
    | true =>
      rw [loop_step continues, Outcome.bind_eq_ok] at success
      obtain ⟨next, moved, rest⟩ := success
      simp only [heads, continues, ↓reduceIte, moved]
      exact .step continues moved (ih rest)
    | false =>
      rw [loop_done continues] at success
      cases success
      simpa [heads, continues] using Run.done continues

/-- What every iteration appends to a list is there, in order, when the loop is left. The
iterations that matter are those that leave the loop alive. -/
theorem Run.appended {β : Type v} {visited : List σ} (run : Run more body state visited final)
    (content added : σ → List β) (Alive : σ → Prop) (stops : ∀ s, more s = true → Alive s)
    (alive : Alive final)
    (appends : ∀ s ∈ visited, ∀ s', more s = true → body s = .ok s' → Alive s' →
      content s' = content s ++ added s) : content final = content state ++ visited.flatMap added := by
  induction run with
  | done _ => simp
  | @step state next final visited continues moved rest ih =>
    have nextAlive : Alive next := by
      cases rest with
      | done _ => exact alive
      | step again _ _ => exact stops next again
    rw [ih alive fun s member => appends s (List.mem_cons_of_mem _ member),
      appends _ List.mem_cons_self _ continues moved nextAlive, List.flatMap_cons, List.append_assoc]

/-- A property kept by every iteration holds when the loop is left. -/
theorem Run.invariant {visited : List σ} (run : Run more body state visited final)
    (Holds : σ → Prop) (start : Holds state)
    (keep : ∀ s s', Holds s → more s = true → body s = .ok s' → Holds s') : Holds final := by
  induction run with
  | done _ => exact start
  | step continues moved _ ih => exact ih (keep _ _ start continues moved)

theorem loop_invariant {fuel : Nat} (success : loop more body fuel state = .ok final)
    (Holds : σ → Prop) (start : Holds state)
    (keep : ∀ s s', Holds s → more s = true → body s = .ok s' → Holds s') :
    Holds final ∧ more final = false := by
  obtain ⟨visited, run, _⟩ := loop_eq_ok_iff.mp success
  exact ⟨run.invariant Holds start keep, run.finished⟩

/-- A run of passes that another body makes too, where an invariant holds, is a run of that body. -/
theorem Run.mono_of {body' : σ → Outcome ε σ} {visited : List σ}
    (run : Run more body state visited final) (Holds : σ → Prop) (start : Holds state)
    (also : ∀ s s', Holds s → body s = .ok s' → body' s = .ok s' ∧ Holds s') :
    Run more body' state visited final := by
  induction run with
  | done finished => exact .done finished
  | step continues moved _ ih =>
    obtain ⟨moved', next⟩ := also _ _ start moved
    exact .step continues moved' (ih next)

theorem Run.mono {body' : σ → Outcome ε σ} {visited : List σ}
    (run : Run more body state visited final)
    (also : ∀ s s', body s = .ok s' → body' s = .ok s') : Run more body' state visited final :=
  run.mono_of (fun _ => True) trivial fun _ _ _ moved => ⟨also _ _ moved, trivial⟩

/-- A measure that every iteration lowers bounds the budget the loop needs. -/
theorem loop_returns (measure : σ → Nat) (Holds : σ → Prop)
    (positive : ∀ s, Holds s → more s = true → 0 < measure s)
    (returns : ∀ s, Holds s → more s = true → (body s).Returns)
    (keep : ∀ s s', Holds s → more s = true → body s = .ok s' →
      Holds s' ∧ measure s' < measure s) {fuel : Nat}
    (start : Holds state) (enough : measure state ≤ fuel) :
    (loop more body fuel state).Returns := by
  induction fuel generalizing state with
  | zero =>
    cases continues : more state with
    | false =>
      rw [loop_done continues]
      trivial
    | true =>
      have bound := positive state start continues
      omega
  | succ fuel ih =>
    cases continues : more state with
    | false =>
      rw [loop_done continues]
      trivial
    | true =>
      rw [loop_step continues]
      refine (returns state start continues).bind fun next moved => ?_
      obtain ⟨holds, lower⟩ := keep _ _ start continues moved
      exact ih holds (by omega)

/-- A loop that can always take another step exhausts every budget. -/
theorem loop_diverges (Holds : σ → Prop) (start : Holds state)
    (again : ∀ s, Holds s → more s = true ∧ ∃ next, body s = .ok next ∧ Holds next) (fuel : Nat) :
    loop more body fuel state = .outOfFuel := by
  induction fuel generalizing state with
  | zero => simp [loop, (again state start).1]
  | succ fuel ih =>
    obtain ⟨continues, next, moved, holds⟩ := again state start
    rw [loop_step continues, moved, Outcome.ok_bind]
    exact ih holds

/-- The loop makes a pass from a state, whatever the budget. -/
inductive Visits (more : σ → Bool) (body : σ → Outcome ε σ) : σ → σ → Prop where
  | here {state : σ} (continues : more state = true) : Visits more body state state
  | step {state next later : σ} (continues : more state = true) (moved : body state = .ok next)
      (rest : Visits more body next later) : Visits more body state later

theorem Visits.invariant {later : σ} (visits : Visits more body state later) (Holds : σ → Prop)
    (start : Holds state)
    (keep : ∀ s s', Holds s → more s = true → body s = .ok s' → Holds s') :
    Holds later ∧ more later = true := by
  induction visits with
  | here continues => exact ⟨start, continues⟩
  | step continues moved _ inductionHypothesis =>
    exact inductionHypothesis (keep _ _ start continues moved)

/-- What the passes that a finished loop makes preserve, holds in the end. -/
theorem loop_keeps {fuel : Nat} (success : loop more body fuel state = .ok final) (Holds : σ → Prop)
    (start : Holds state)
    (keep : ∀ s s', Visits more body state s → Holds s → body s = .ok s' → Holds s') :
    Holds final ∧ more final = false := by
  obtain ⟨visited, run, short⟩ := loop_eq_ok_iff.mp success
  clear success short
  induction run with
  | done finished => exact ⟨start, finished⟩
  | step continues moved _ inductionHypothesis =>
    apply inductionHypothesis (keep _ _ (.here continues) start moved)
    intro s s' visits
    exact keep s s' (.step continues moved visits)

/-- A loop whose passes lower a measure, or are stuck for good in a state that halts it, returns if
and only if it never gets to such a state and all its passes return. -/
theorem loop_returns_iff_unhalted (Holds Halts : σ → Prop) (measure : σ → Nat)
    (positive : ∀ s, Holds s → more s = true → 0 < measure s)
    (keep : ∀ s s', Holds s → more s = true → body s = .ok s' → Holds s')
    (lower : ∀ s s', Holds s → more s = true → ¬ Halts s → body s = .ok s' → measure s' < measure s)
    (stays : ∀ s, Halts s → more s = true ∧ ∃ next, body s = .ok next ∧ Halts next) {fuel : Nat}
    (start : Holds state) (enough : measure state ≤ fuel) :
    (loop more body fuel state).Returns ↔
      ∀ s, Visits more body state s → ¬ Halts s ∧ (body s).Returns := by
  induction fuel generalizing state with
  | zero =>
    have finished : more state = false := by
      refine Bool.eq_false_iff.mpr fun continues => ?_
      have above := positive state start continues
      omega
    rw [loop_done finished]
    refine iff_of_true trivial fun s visits => ?_
    cases visits with
    | here continues => simp [finished] at continues
    | step continues _ _ => simp [finished] at continues
  | succ fuel inductionHypothesis =>
    cases continues : more state with
    | false =>
      rw [loop_done continues]
      refine iff_of_true trivial fun s visits => ?_
      cases visits with
      | here again => simp [continues] at again
      | step again _ _ => simp [continues] at again
    | true =>
      by_cases halts : Halts state
      · rw [loop_diverges Halts halts stays]
        exact iff_of_false not_false fun never => (never state (.here continues)).1 halts
      rw [loop_step continues]
      cases moved : body state with
      | ok next =>
        have below := lower _ _ start continues halts moved
        rw [Outcome.ok_bind, inductionHypothesis (keep _ _ start continues moved) (by omega)]
        constructor
        · intro returns s visits
          cases visits with
          | here _ => exact ⟨halts, by rw [moved]; trivial⟩
          | step _ moved' rest =>
            cases moved.symm.trans moved'
            exact returns s rest
        · intro returns s visits
          exact returns s (.step continues moved visits)
      | err error =>
        refine iff_of_true trivial fun s visits => ?_
        cases visits with
        | here _ => exact ⟨halts, by rw [moved]; trivial⟩
        | step _ moved' _ => cases moved.symm.trans moved'
      | panic | outOfFuel =>
        refine iff_of_false not_false fun returns => ?_
        have never := (returns state (.here continues)).2
        rw [moved] at never
        exact never

/-- With a budget that covers a measure the loop returns if and only if all its passes do. -/
theorem loop_returns_iff (measure : σ → Nat) (positive : ∀ s, more s = true → 0 < measure s)
    (lower : ∀ s s', more s = true → body s = .ok s' → measure s' < measure s) {fuel : Nat}
    (enough : measure state ≤ fuel) :
    (loop more body fuel state).Returns ↔ ∀ s, Visits more body state s → (body s).Returns := by
  have general := loop_returns_iff_unhalted (fun _ => True) (fun _ => False) measure
    (fun s _ => positive s) (fun _ _ _ _ _ => trivial) (fun s s' _ continues _ => lower s s' continues)
    (fun _ => False.elim) trivial enough
  simpa only [not_false_eq_true, true_and] using general

/-- The states at the loop head before one that is met there, whatever the budget. -/
inductive Path (more : σ → Bool) (body : σ → Outcome ε σ) : σ → List σ → σ → Prop where
  | here {state : σ} : Path more body state [] state
  | step {state next final : σ} {visited : List σ} (continues : more state = true)
      (moved : body state = .ok next) (rest : Path more body next visited final) :
      Path more body state (state :: visited) final

theorem Path.invariant {visited : List σ} (path : Path more body state visited final)
    (Holds : σ → Prop) (start : Holds state)
    (keep : ∀ s s', Holds s → more s = true → body s = .ok s' → Holds s') : Holds final := by
  induction path with
  | here => exact start
  | step continues moved _ ih => exact ih (keep _ _ start continues moved)

/-- A pass that fails within the budget fails the loop. -/
theorem Path.loop_failed {visited : List σ} {error : ε}
    (path : Path more body state visited final) (continues : more final = true)
    (failed : body final = .err error) {fuel : Nat} (enough : visited.length < fuel) :
    loop more body fuel state = .err error := by
  induction path generalizing fuel with
  | here =>
    cases fuel with
    | zero => simp at enough
    | succ fuel => rw [loop_step continues, failed, Outcome.err_bind]
  | step before moved _ ih =>
    cases fuel with
    | zero => simp at enough
    | succ fuel =>
      rw [loop_step before, moved, Outcome.ok_bind]
      exact ih continues failed (by simpa using enough)

/-- A state the loop stops in is what it returns, if the budget reaches it. -/
theorem Path.loop_finished {visited : List σ} (path : Path more body state visited final)
    (finished : more final = false) {fuel : Nat} (enough : visited.length ≤ fuel) :
    loop more body fuel state = .ok final := by
  induction path generalizing fuel with
  | here => exact loop_done finished fuel
  | step before moved _ ih =>
    cases fuel with
    | zero => simp at enough
    | succ fuel =>
      rw [loop_step before, moved, Outcome.ok_bind]
      exact ih finished (by simpa using enough)

/-- Passes that lower a measure are at most as many as it started with. -/
theorem Path.length_le (measure : σ → Nat) (Holds : σ → Prop) {visited : List σ}
    (path : Path more body state visited final) (start : Holds state)
    (keep : ∀ s s', Holds s → more s = true → body s = .ok s' → Holds s' ∧ measure s' < measure s) :
    visited.length + measure final ≤ measure state := by
  induction path with
  | here => simp
  | step continues moved _ ih =>
    obtain ⟨holds, lower⟩ := keep _ _ start continues moved
    have bound := ih holds
    simp only [List.length_cons]
    omega

/-- Equal keys lead to equal keys: the key decides where a pass goes. -/
structure Keyed (more : σ → Bool) (body : σ → Outcome ε σ) (Holds : σ → Prop) (key : σ → Nat) :
    Prop where
  keep : ∀ s s', Holds s → more s = true → body s = .ok s' → Holds s'
  agree : ∀ s t s' t', Holds s → Holds t → key s = key t → body s = .ok s' → body t = .ok t' →
    key s' = key t'

section Keyed

variable {Holds : σ → Prop} {key : σ → Nat}

private theorem Path.length_eq (keyed : Keyed more body Holds key) {start : σ}
    {visited visited' : List σ} {final' : σ} (first : Path more body start visited final)
    (second : Path more body state visited' final') (held : Holds start) (held' : Holds state)
    (same : key start = key state) (sameEnd : key final = key final')
    (stuck : ∀ s next, Holds s → key s = key final → body s ≠ .ok next) :
    visited.length = visited'.length := by
  induction first generalizing state visited' with
  | here =>
    cases second with
    | here => rfl
    | step _ moved _ => exact absurd moved (stuck _ _ held' same.symm)
  | step continues moved _ ih =>
    cases second with
    | here => exact absurd moved (stuck _ _ held (same.trans sameEnd.symm))
    | step continues' moved' rest' =>
      have next := ih rest' (keyed.keep _ _ held continues moved)
        (keyed.keep _ _ held' continues' moved') (keyed.agree _ _ _ _ held held' same moved moved')
        sameEnd stuck
      simp [next]

private theorem Path.suffix (keyed : Keyed more body Holds key) {visited : List σ} {s : σ}
    (path : Path more body state visited final) (held : Holds state) (member : s ∈ visited) :
    Holds s ∧ more s = true ∧ ∃ next visited', body s = .ok next ∧
      Path more body next visited' final ∧ visited'.length < visited.length := by
  induction path with
  | here => simp at member
  | @step state next final visited continues moved rest ih =>
    rcases List.mem_cons.mp member with rfl | later
    · exact ⟨held, continues, next, visited, moved, rest, Nat.lt_succ_self _⟩
    · obtain ⟨heldHere, before, next', visited', moved', path, shorter⟩ :=
        ih (keyed.keep _ _ held continues moved) later
      exact ⟨heldHere, before, next', visited', moved', path, Nat.lt_succ_of_lt shorter⟩

/-- On the way to a key whose passes never succeed, no key repeats. -/
private theorem Path.keys_nodup (keyed : Keyed more body Holds key) {visited : List σ}
    (path : Path more body state visited final) (held : Holds state)
    (stuck : ∀ s next, Holds s → key s = key final → body s ≠ .ok next) :
    (visited.map key).Nodup := by
  induction path with
  | here => simp
  | @step state next final visited continues moved rest ih =>
    have heldNext := keyed.keep _ _ held continues moved
    refine List.nodup_cons.mpr ⟨fun repeated => ?_, ih heldNext stuck⟩
    obtain ⟨s, member, same⟩ := List.mem_map.mp repeated
    obtain ⟨heldHere, before, next', visited', moved', later, shorter⟩ :=
      rest.suffix keyed heldNext member
    have whole : Path more body state (state :: visited) final := .step continues moved rest
    have lengths := whole.length_eq keyed (.step before moved' later) held heldHere same.symm rfl stuck
    simp only [List.length_cons] at lengths
    omega

/-- A failure that its key forces is met within as many passes as there are keys. -/
theorem Path.loop_failed_of_keyed (keyed : Keyed more body Holds key) {visited : List σ} {error : ε}
    (path : Path more body state visited final) (held : Holds state)
    (continues : more final = true) (failed : body final = .err error)
    (stuck : ∀ s next, Holds s → key s = key final → body s ≠ .ok next) {fuel : Nat}
    (bounded : ∀ s, Holds s → more s = true → key s < fuel) :
    loop more body fuel state = .err error := by
  have distinct : (key final :: visited.map key).Nodup := by
    refine List.nodup_cons.mpr ⟨fun repeated => ?_, path.keys_nodup keyed held stuck⟩
    obtain ⟨s, member, same⟩ := List.mem_map.mp repeated
    obtain ⟨heldHere, _, _, _, moved, _⟩ := path.suffix keyed held member
    exact stuck _ _ heldHere same moved
  have inRange : key final :: visited.map key ⊆ List.range fuel := by
    intro k member
    rcases List.mem_cons.mp member with rfl | earlier
    · exact List.mem_range.mpr (bounded _ (path.invariant Holds held keyed.keep) continues)
    · obtain ⟨s, visits, rfl⟩ := List.mem_map.mp earlier
      obtain ⟨heldHere, before, _⟩ := path.suffix keyed held visits
      exact List.mem_range.mpr (bounded _ heldHere before)
  have short := distinct.length_le_of_subset inRange
  simp only [List.length_cons, List.length_map, List.length_range] at short
  exact path.loop_failed continues failed short

end Keyed

/-- Bodies that agree on the states an invariant allows run alike. -/
theorem loop_congr {body' : σ → Outcome ε σ} (Holds : σ → Prop)
    (same : ∀ s, Holds s → more s = true → body s = body' s)
    (keep : ∀ s s', Holds s → more s = true → body s = .ok s' → Holds s') {fuel : Nat}
    (start : Holds state) : loop more body fuel state = loop more body' fuel state := by
  induction fuel generalizing state with
  | zero => rfl
  | succ fuel ih =>
    cases continues : more state with
    | false => rw [loop_done continues, loop_done continues]
    | true =>
      rw [loop_step continues, loop_step continues, ← same state start continues]
      exact Outcome.bind_congr fun next moved => ih (keep _ _ start continues moved)

/-- Runs from related states that passes keep related end in related states. -/
theorem Run.related {R : σ → σ → Prop} {state' final' : σ} {visited visited' : List σ}
    (together : ∀ s t, R s t → more s = more t)
    (keep : ∀ s t, R s t → Outcome.Related R (body s) (body t))
    (run : Run more body state visited final) (run' : Run more body state' visited' final')
    (start : R state state') : R final final' := by
  induction run generalizing state' visited' with
  | done finished =>
    cases run' with
    | done _ => exact start
    | step continues _ _ => simp [together _ _ start, continues] at finished
  | step continues moved _ ih =>
    cases run' with
    | done finished => simp [together _ _ start, finished] at continues
    | step _ moved' rest' => exact ih rest' (keep _ _ start _ _ moved moved')

/-- Bodies that keep states related keep the loops' results related. -/
theorem loop_related {body' : σ → Outcome ε σ} {R : σ → σ → Prop}
    (together : ∀ s t, R s t → more s = more t)
    (keep : ∀ s t, R s t → Outcome.Related R (body s) (body' t)) {fuel : Nat} {state state' : σ}
    (start : R state state') :
    Outcome.Related R (loop more body fuel state) (loop more body' fuel state') := by
  have same := together _ _ start
  induction fuel generalizing state state' with
  | zero =>
    cases continues : more state with
    | false =>
      rw [loop_done continues, loop_done (same ▸ continues)]
      exact .ok start
    | true =>
      intro a b success
      simp [loop, continues] at success
  | succ fuel ih =>
    cases continues : more state with
    | false =>
      rw [loop_done continues, loop_done (same ▸ continues)]
      exact .ok start
    | true =>
      rw [loop_step continues, loop_step (same ▸ continues)]
      exact (keep _ _ start).bind fun s t related => ih related (together _ _ related)

end TptProto.Foundation
