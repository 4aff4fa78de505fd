import TptProto.Foundation.SortedMap
import TptProto.Foundation.Trace

/-! The health registry and its watchers, with the two steps of `set_status` interleaved. -/

namespace TptProto.Grpc.Health

open TptProto.Foundation

inductive ServingStatus where
  | unknown
  | serving
  | notServing
  | serviceUnknown
  deriving DecidableEq, Repr

/-- One entry for each service that has a status. -/
abbrev Registry := List (String × ServingStatus)

namespace Registry

def insert (registry : Registry) (service : String) (status : ServingStatus) : Registry :=
  (service, status) :: SortedMap.erase registry service

/-- The overall status, which any service that is not serving decides. -/
def overall (registry : Registry) : ServingStatus :=
  if registry.any fun entry => entry.2 = .notServing then .notServing
  else if registry.any fun entry => entry.2 = .serving then .serving
  else .unknown

def getStatus (registry : Registry) (service : String) : ServingStatus :=
  if service = "" then registry.overall
  else (SortedMap.get? registry service).getD .unknown

def check (registry : Registry) (service : String) : ServingStatus :=
  if service = "" then registry.getStatus ""
  else (SortedMap.get? registry service).getD .serviceUnknown

end Registry

/-- The stream of one `watch` call: its receiver, the status it found first, and what it has
delivered so far. -/
structure Watcher where
  service : String
  started : Bool := false
  pending : Option ServingStatus := none
  queue : List (String × ServingStatus) := []
  delivered : List ServingStatus := []
  deriving DecidableEq, Repr

namespace Watcher

variable (watcher : Watcher)

/-- The watcher hands on what is broadcast under its service or under no service. -/
def takes (svc : String) : Bool := svc = watcher.service || svc = ""

def receive (sent : String × ServingStatus) : Watcher :=
  { watcher with queue := watcher.queue ++ [sent] }

def start (current : ServingStatus) : Watcher :=
  { watcher with started := true, pending := some current }

/-- One round of the stream: the pending status first, then the queue. -/
def poll : Watcher :=
  match watcher.pending, watcher.queue with
  | some status, _ =>
    { watcher with pending := none, delivered := watcher.delivered ++ [status] }
  | none, (svc, status) :: rest =>
    if watcher.takes svc then
      { watcher with queue := rest, delivered := watcher.delivered ++ [status] }
    else { watcher with queue := rest }
  | none, [] => watcher

/-- What has been delivered and what will be, if nothing else is broadcast. -/
def words : List ServingStatus :=
  watcher.delivered ++ watcher.pending.toList ++
    (watcher.queue.filter fun sent => watcher.takes sent.1).map Prod.snd

end Watcher

/-- Where a call of `set_status` stands. -/
inductive Setting where
  | idle
  | inserted (service : String) (status : ServingStatus)
  | done
  deriving DecidableEq, Repr

/-- Calls and watchers go by numbers. `past` holds every registry that `check` could have read. -/
structure State where
  registry : Registry := []
  past : List Registry := [[]]
  setting : Nat → Setting := fun _ => .idle
  watcher : Nat → Option Watcher := fun _ => none

inductive Event where
  | insert (k : Nat) (service : String) (status : ServingStatus)
  | broadcast (k : Nat)
  | check (service : String)
  | subscribe (w : Nat) (service : String)
  | start (w : Nat)
  | poll (w : Nat)

namespace State

def setSetting (s : State) (k : Nat) (phase : Setting) : State :=
  { s with setting := fun j => if j = k then phase else s.setting j }

def setWatcher (s : State) (w : Nat) (watcher : Watcher) : State :=
  { s with watcher := fun v => if v = w then some watcher else s.watcher v }

def insert (s : State) (service : String) (status : ServingStatus) : State :=
  { s with
    registry := s.registry.insert service status
    past := s.registry.insert service status :: s.past }

def broadcast (s : State) (sent : String × ServingStatus) : State :=
  { s with watcher := fun w => (s.watcher w).map fun watcher => watcher.receive sent }

end State

inductive Step : State → Event → State → Prop where
  | insert {s : State} {k : Nat} {service : String} {status : ServingStatus}
      (here : s.setting k = .idle) :
      Step s (.insert k service status)
        ((s.setSetting k (.inserted service status)).insert service status)
  | broadcast {s : State} {k : Nat} {service : String} {status : ServingStatus}
      (here : s.setting k = .inserted service status) :
      Step s (.broadcast k) ((s.setSetting k .done).broadcast (service, status))
  | check {s : State} {service : String} : Step s (.check service) s
  | subscribe {s : State} {w : Nat} {service : String} (free : s.watcher w = none) :
      Step s (.subscribe w service) (s.setWatcher w { service })
  | start {s : State} {w : Nat} {watcher : Watcher} (here : s.watcher w = some watcher)
      (once : watcher.started = false) :
      Step s (.start w)
        (s.setWatcher w (watcher.start (s.registry.check watcher.service)))
  | poll {s : State} {w : Nat} {watcher : Watcher} (here : s.watcher w = some watcher)
      (streaming : watcher.started = true) :
      Step s (.poll w) (s.setWatcher w watcher.poll)

/-- `check` has returned this status for the service, or could have. -/
def Returned (s : State) (service : String) (status : ServingStatus) : Prop :=
  ∃ registry ∈ s.past, Registry.check registry service = status

/-- Once no `set_status` is in progress and its queue is drained, a watcher has last delivered what
`check` returns, and it never delivers a status that `check` has not returned. -/
structure Agrees (s : State) : Prop where
  last : (∀ k service status, s.setting k ≠ .inserted service status) →
    ∀ w watcher, s.watcher w = some watcher → watcher.started = true → watcher.pending = none →
      watcher.queue = [] → watcher.delivered.getLast? = some (s.registry.check watcher.service)
  returned : ∀ w watcher, s.watcher w = some watcher → ∀ status ∈ watcher.delivered,
    Returned s watcher.service status

/-- A `set_status` is in progress whose broadcast the watcher will take. -/
def Awaits (s : State) (watcher : Watcher) (k : Nat) : Prop :=
  ∃ service status, s.setting k = .inserted service status ∧ watcher.takes service = true

/-- A broadcast tells each watcher that takes it what `check` returns, unless another one that it
takes is to come; and the overall status does not change behind the back of those who watch it. -/
def Consistent (s : State) : Event → Prop
  | .insert _ service status =>
    service ≠ "" → ∀ w watcher, s.watcher w = some watcher → watcher.service = "" →
      watcher.words ≠ [] → (∀ k, ¬ Awaits s watcher k) →
        (s.registry.insert service status).overall = s.registry.overall
  | .broadcast k =>
    ∀ service status, s.setting k = .inserted service status →
      ∀ w watcher, s.watcher w = some watcher → watcher.takes service = true →
        s.registry.check watcher.service = status ∨
          Returned s watcher.service status ∧ ∃ j, j ≠ k ∧ Awaits s watcher j
  | _ => True

section Words

variable {watcher : Watcher}

private theorem words_receive (sent : String × ServingStatus) :
    (watcher.receive sent).words =
      if watcher.takes sent.1 then watcher.words ++ [sent.2] else watcher.words := by
  have same : (watcher.receive sent).takes = watcher.takes := rfl
  unfold Watcher.words
  rw [same]
  cases taken : watcher.takes sent.1 <;> simp [Watcher.receive, List.filter_append, taken]

private theorem words_poll : watcher.poll.words = watcher.words := by
  unfold Watcher.poll
  split
  · rename_i pending
    simp [Watcher.words, Watcher.takes, pending]
  · rename_i svc status rest pending queue
    have rest_ (delivered : List ServingStatus) :
        ({ watcher with queue := rest, delivered } : Watcher).takes = watcher.takes := rfl
    split
    · rename_i taken
      unfold Watcher.words
      rw [rest_]
      simp [pending, queue, taken]
    · rename_i dropped
      unfold Watcher.words
      rw [rest_]
      simp [pending, queue, dropped]
  · rfl

private theorem service_poll : watcher.poll.service = watcher.service := by
  unfold Watcher.poll
  split
  · rfl
  · split <;> rfl
  · rfl

private theorem started_poll : watcher.poll.started = watcher.started := by
  unfold Watcher.poll
  split
  · rfl
  · split <;> rfl
  · rfl

end Words

section Invariant

variable {s next : State} {event : Event} {watcher : Watcher}

/-- A watcher has heard only what `check` has returned, and last what it returns, unless more is to
come. -/
structure Fine (s : State) (watcher : Watcher) : Prop where
  heard : ∀ status ∈ watcher.words, Returned s watcher.service status
  latest : ∀ status, (∀ k, ¬ Awaits s watcher k) → watcher.words.getLast? = some status →
    s.registry.check watcher.service = status
  fresh : watcher.started = false → watcher.pending = none ∧ watcher.delivered = []
  begun : watcher.started = true → watcher.pending = none → watcher.delivered ≠ []

structure Inv (s : State) : Prop where
  current : s.registry ∈ s.past
  fine : ∀ w watcher, s.watcher w = some watcher → Fine s watcher

private theorem check_insert {registry : Registry} {service other : String}
    {status : ServingStatus} (named : other ≠ "") (apart : service ≠ other) :
    (registry.insert service status).check other = registry.check other := by
  unfold Registry.check Registry.insert
  rw [if_neg named, if_neg named, SortedMap.get?_cons, if_neg apart, SortedMap.get?_erase,
    if_neg (Ne.symm apart)]

private theorem takes_eq_false {service : String} (dropped : watcher.takes service = false) :
    service ≠ watcher.service ∧ service ≠ "" := by
  simpa [Watcher.takes] using dropped

private theorem fine_insert {k : Nat} {service : String} {status : ServingStatus} {w : Nat}
    (here : s.setting k = .idle) (consistent : Consistent s (.insert k service status))
    (held : s.watcher w = some watcher) (fine : Fine s watcher) :
    Fine ((s.setSetting k (.inserted service status)).insert service status) watcher := by
  refine ⟨?_, ?_, fine.fresh, fine.begun⟩
  · intro heard member
    obtain ⟨registry, inside, same⟩ := fine.heard heard member
    exact ⟨registry, List.mem_cons_of_mem _ inside, same⟩
  · intro last none words
    have dropped : watcher.takes service = false := by
      refine Bool.eq_false_iff.mpr fun taken => none k ⟨service, status, ?_, taken⟩
      exact if_pos rfl
    obtain ⟨apart, named⟩ := takes_eq_false dropped
    have before : ∀ j, ¬ Awaits s watcher j := by
      rintro j ⟨svc, st, waiting, taken⟩
      have other : j ≠ k := by
        rintro rfl
        cases here.symm.trans waiting
      exact none j ⟨svc, st, (if_neg other).trans waiting, taken⟩
    rw [← fine.latest last before words]
    rcases Classical.em (watcher.service = "") with overall | single
    · have kept := consistent named w watcher held overall
        (by rintro empty; rw [empty] at words; cases words) before
      unfold Registry.check
      rw [if_pos overall, if_pos overall]
      exact kept
    · exact check_insert single apart

private theorem fine_broadcast {k : Nat} {service : String} {status : ServingStatus} {w : Nat}
    (here : s.setting k = .inserted service status) (current : s.registry ∈ s.past)
    (consistent : Consistent s (.broadcast k)) (held : s.watcher w = some watcher)
    (fine : Fine s watcher) :
    Fine ((s.setSetting k .done).broadcast (service, status))
      (watcher.receive (service, status)) := by
  have agrees := consistent service status here w watcher held
  refine ⟨?_, ?_, fine.fresh, fine.begun⟩
  · intro heard member
    rw [words_receive] at member
    split at member
    · rename_i taken
      rcases List.mem_append.mp member with earlier | now
      · exact fine.heard heard earlier
      · cases List.mem_singleton.mp now
        rcases agrees taken with same | ⟨returned, _⟩
        · exact ⟨s.registry, current, same⟩
        · exact returned
    · exact fine.heard heard member
  · intro last none words
    have later (j : Nat) (other : j ≠ k) : ¬ Awaits s watcher j := by
      rintro ⟨svc, st, waiting, taken⟩
      exact none j ⟨svc, st, (if_neg other).trans waiting, taken⟩
    rw [words_receive] at words
    split at words
    · rename_i taken
      rw [List.getLast?_concat] at words
      cases words
      rcases agrees taken with same | ⟨_, j, other, awaits⟩
      · exact same
      · exact (later j other awaits).elim
    · rename_i dropped
      refine fine.latest last (fun j awaits => ?_) words
      rcases Classical.em (j = k) with rfl | other
      · obtain ⟨svc, st, waiting, taken⟩ := awaits
        cases here.symm.trans waiting
        exact dropped taken
      · exact later j other awaits

private theorem fine_start (current : s.registry ∈ s.past) (fine : Fine s watcher)
    (once : watcher.started = false) :
    Fine s (watcher.start (s.registry.check watcher.service)) := by
  obtain ⟨pending, delivered⟩ := fine.fresh once
  have words : (watcher.start (s.registry.check watcher.service)).words =
      s.registry.check watcher.service :: watcher.words := by
    have same : (watcher.start (s.registry.check watcher.service)).takes = watcher.takes := rfl
    unfold Watcher.words
    rw [same]
    simp [Watcher.start, pending, delivered]
  refine ⟨?_, ?_, nofun, nofun⟩
  · intro heard member
    rw [words] at member
    rcases List.mem_cons.mp member with rfl | queued
    · exact ⟨s.registry, current, rfl⟩
    · exact fine.heard heard queued
  · intro last none least
    rw [words, List.getLast?_cons] at least
    cases earlier : watcher.words.getLast? with
    | none =>
      rw [earlier] at least
      exact Option.some.inj least
    | some queued =>
      rw [earlier] at least
      cases least
      exact fine.latest queued none earlier

private theorem fine_poll (fine : Fine s watcher) (streaming : watcher.started = true) :
    Fine s watcher.poll := by
  refine ⟨?_, ?_, ?_, ?_⟩
  · rw [words_poll, service_poll]
    exact fine.heard
  · intro last none words
    rw [words_poll] at words
    rw [service_poll]
    refine fine.latest last (fun k awaits => none k ?_) words
    unfold Awaits Watcher.takes
    rw [service_poll]
    exact awaits
  · intro never
    rw [started_poll, streaming] at never
    cases never
  · intro _ _
    unfold Watcher.poll
    split
    · exact List.append_ne_nil_of_right_ne_nil _ (List.cons_ne_nil _ _)
    · rename_i pending _
      split
      · exact List.append_ne_nil_of_right_ne_nil _ (List.cons_ne_nil _ _)
      · exact fine.begun streaming pending
    · rename_i pending _
      exact fine.begun streaming pending

/-- A step that touches one watcher only. -/
private theorem inv_setWatcher {w : Nat} (inv : Inv s) (fine : Fine s watcher) :
    Inv (s.setWatcher w watcher) := by
  refine ⟨inv.current, ?_⟩
  intro v other held
  have same : Fine s other := by
    unfold State.setWatcher at held
    simp only at held
    split at held
    · cases held
      exact fine
    · exact inv.fine v other held
  exact ⟨same.heard, same.latest, same.fresh, same.begun⟩

theorem inv_step (inv : Inv s) (consistent : Consistent s event) (step : Step s event next) :
    Inv next := by
  cases step with
  | insert here =>
    refine ⟨List.mem_cons_self, fun w watcher held => ?_⟩
    exact fine_insert here consistent held (inv.fine w watcher held)
  | broadcast here =>
    refine ⟨inv.current, fun w watcher held => ?_⟩
    obtain ⟨before, found, rfl⟩ := Option.map_eq_some_iff.mp held
    exact fine_broadcast here inv.current consistent found (inv.fine w before found)
  | check => exact inv
  | subscribe free => exact inv_setWatcher inv ⟨nofun, nofun, fun _ => ⟨rfl, rfl⟩, nofun⟩
  | start here once =>
    exact inv_setWatcher inv (fine_start inv.current (inv.fine _ _ here) once)
  | poll here streaming => exact inv_setWatcher inv (fine_poll (inv.fine _ _ here) streaming)

theorem inv_start : Inv {} := ⟨List.mem_cons_self, nofun⟩

theorem Inv.agrees (inv : Inv s) : Agrees s := by
  refine ⟨?_, ?_⟩
  · intro idle w watcher held started pending queue
    have fine := inv.fine w watcher held
    have words : watcher.words = watcher.delivered := by simp [Watcher.words, pending, queue]
    have unawaited (k : Nat) : ¬ Awaits s watcher k := by
      rintro ⟨service, status, waiting, _⟩
      exact idle k service status waiting
    have filled : watcher.delivered.getLast? ≠ none := fun empty =>
      fine.begun started pending (List.getLast?_eq_none_iff.mp empty)
    obtain ⟨last, least⟩ := Option.ne_none_iff_exists'.mp filled
    rw [fine.latest last unawaited (by rw [words]; exact least)]
    exact least
  · intro w watcher held status delivered
    refine (inv.fine w watcher held).heard status ?_
    unfold Watcher.words
    rw [List.append_assoc]
    exact List.mem_append_left _ delivered

end Invariant

/-- In a run of consistent steps the watchers agree with `check` in every state reached. -/
theorem watch_agrees {events : List Event} {s : State} (run : Trace Step {} events s)
    (consistent : Throughout Step Consistent {} events) : Agrees s :=
  (run.invariant consistent inv_start fun _ _ _ inv consistent step =>
    inv_step inv consistent step).agrees

/-- A status set for the whole server is delivered to the watcher of a service. -/
theorem not_agrees_overall : ¬ ∀ events s, Trace Step {} events s → Agrees s := by
  intro agrees
  have run : Trace Step {} [.subscribe 0 "echo", .start 0, .insert 0 "" .notServing, .broadcast 0,
      .poll 0, .poll 0] _ :=
    .cons (.subscribe rfl) (.cons (.start rfl rfl) (.cons (.insert rfl) (.cons (.broadcast rfl)
      (.cons (.poll rfl rfl) (.cons (.poll rfl rfl) (.nil _))))))
  have last := (agrees _ _ run).last ?_ 0 _ rfl rfl rfl rfl
  · exact absurd last (by decide)
  · intro k service status waiting
    change (if k = 0 then Setting.done else if k = 0 then .inserted "" .notServing else .idle) = _
      at waiting
    split at waiting
    · cases waiting
    · cases waiting

/-- A watcher of the service that is set agrees. -/
theorem watch_agrees_echo : ∃ s, Trace Step {} [.subscribe 0 "echo", .start 0,
    .insert 0 "echo" .serving, .broadcast 0] s ∧ Agrees s := by
  have run : Trace Step {} [.subscribe 0 "echo", .start 0, .insert 0 "echo" .serving,
      .broadcast 0] _ :=
    .cons (.subscribe rfl) (.cons (.start rfl rfl) (.cons (.insert rfl) (.cons (.broadcast rfl)
      (.nil _))))
  have only {first second watcher : Watcher} {w : Nat}
      (held : (if w = 0 then some first else if w = 0 then some second else none) = some watcher) :
      watcher = first := by
    split at held
    · exact (Option.some.inj held).symm
    · cases held
  refine ⟨_, run, watch_agrees run ?_⟩
  refine .cons trivial fun _ step => ?_
  cases step with
  | subscribe free =>
  refine .cons trivial fun _ step => ?_
  cases step with
  | start here once =>
  cases here
  refine .cons ?_ fun _ step => ?_
  · intro _ w watcher held overall
    rw [only held] at overall
    exact absurd overall (by decide)
  cases step with
  | insert here' =>
  refine .cons ?_ fun _ _ => .nil
  intro service status waiting w watcher held _
  cases waiting
  rw [only held]
  exact .inl rfl

end TptProto.Grpc.Health
