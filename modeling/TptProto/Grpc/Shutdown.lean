import TptProto.Grpc.HandleRequest
import TptProto.Grpc.Codec

/-! The accept loop, the connection loops and the request tasks of a server, and what a
shutdown leaves of the calls in flight. -/

namespace TptProto.Grpc

open TptProto.Core TptProto.Foundation

namespace Shutdown

/-- A request and the task spawned for it, which waits for a permit first. `outcome` is the result
that the task goes on to send, and `flushed` says that the connection has written its status out.
`caught` remembers that the call was being dispatched when the server was shut down. -/
structure Rpc where
  conn : Nat
  call : Call
  task : Option CallState := none
  caught : Bool := false
  outcome : Option (Except Status HandlerOutput) := none
  failed : Bool := false
  flushed : Bool := false

/-- What `serve_with_acceptor` is at. -/
inductive Serving where
  | accepting
  | draining
  | returned
  deriving DecidableEq, Repr

/-- For every connection, whether its loop still drives it. -/
structure State where
  shutdown : Bool := false
  serving : Serving := .accepting
  timedOut : Bool := false
  conns : List Bool := []
  rpcs : List Rpc := []

/-- Why a connection's loop ends: a token is cancelled, or there are no more requests. -/
inductive Leaving where
  | shutdown
  | keepalive
  | closed
  deriving DecidableEq, Repr

inductive Event where
  | shutdown
  | connected
  | stopped
  | requested (conn : Nat) (call : Call)
  | permitted (rpc : Nat)
  | task (rpc : Nat) (event : Grpc.Event)
  | flushed (rpc : Nat)
  | left (conn : Nat) (cause : Leaving)
  | drained
  | drainTimeout

namespace Rpc

/-- The call waits for its handler. -/
def dispatching (rpc : Rpc) : Bool :=
  match rpc.task with
  | some { phase := .waiting, .. } => true
  | _ => false

def noticed (rpc : Rpc) : Rpc := { rpc with caught := rpc.caught || rpc.dispatching }

/-- The task holds a permit until it ends. -/
def running (rpc : Rpc) : Bool :=
  match rpc.task with
  | none | some { phase := .done, .. } => false
  | _ => true

/-- What the handler answered, if it has. -/
def answer (rpc : Rpc) : Option (Except Status HandlerOutput) := rpc.task.bind CallState.result

/-- A step of the task chooses the outcome, replaces it, or fails to send it. -/
def after (rpc : Rpc) (event : Grpc.Event) (next : CallState) : Rpc :=
  match event, next.phase with
  | .admitted, .opening result | .selected _, .opening result =>
    { rpc with task := some next, outcome := some result }
  | .openFailed _, .closing status =>
    { rpc with task := some next, outcome := some (.error status) }
  | .sendFailed, _ | .statusFailed, _ => { rpc with task := some next, failed := true }
  | _, _ => { rpc with task := some next }

end Rpc

variable (codec : GzipCodec) (maxConcurrentRpcs : Nat)

def running (s : State) : Nat := s.rpcs.countP Rpc.running

/-- One step of the server. A token that is cancelled is noticed by each loop and each task on its
own, and a selection with several ready branches may take any of them. Request tasks are detached:
draining waits for the connections alone, and its timeout aborts those. -/
inductive Step : State → Event → State → Prop where
  | shutdown {s : State} :
      Step s .shutdown { s with shutdown := true, rpcs := s.rpcs.map Rpc.noticed }
  | connected {s : State} (here : s.serving = .accepting) :
      Step s .connected { s with conns := s.conns ++ [true] }
  | stopped {s : State} (here : s.serving = .accepting) (cancelled : s.shutdown = true) :
      Step s .stopped { s with serving := .draining }
  | requested {s : State} {conn : Nat} {call : Call} (driven : s.conns[conn]? = some true) :
      Step s (.requested conn call) { s with rpcs := s.rpcs ++ [{ conn, call }] }
  | permitted {s : State} {i : Nat} {rpc : Rpc} (found : s.rpcs[i]? = some rpc)
      (queued : rpc.task = none) (room : running s < maxConcurrentRpcs) :
      Step s (.permitted i) { s with rpcs := s.rpcs.set i { rpc with task := some rpc.call.start } }
  | task {s : State} {i : Nat} {rpc : Rpc} {event : Grpc.Event} {task next : CallState}
      (found : s.rpcs[i]? = some rpc) (started : rpc.task = some task)
      (told : event = .shutdown → s.shutdown = true)
      (taken : Grpc.Step codec rpc.call task event next) :
      Step s (.task i event) { s with rpcs := s.rpcs.set i (rpc.after event next) }
  | flushed {s : State} {i : Nat} {rpc : Rpc} {task : CallState} (found : s.rpcs[i]? = some rpc)
      (driven : s.conns[rpc.conn]? = some true) (started : rpc.task = some task)
      (ended : task.phase = .done) (sent : rpc.failed = false) :
      Step s (.flushed i) { s with rpcs := s.rpcs.set i { rpc with flushed := true } }
  | left {s : State} {conn : Nat} {cause : Leaving} (driven : s.conns[conn]? = some true)
      (cancelled : cause = .shutdown → s.shutdown = true) :
      Step s (.left conn cause) { s with conns := s.conns.set conn false }
  | drained {s : State} (here : s.serving = .draining) (all : ∀ driven ∈ s.conns, driven = false) :
      Step s .drained { s with serving := .returned }
  | drainTimeout {s : State} (here : s.serving = .draining) :
      Step s .drainTimeout
        { s with serving := .returned, timedOut := true, conns := s.conns.map fun _ => false }

/-- The outcome is the answer of the handler, nothing has failed to be sent, and the connection is
driven until the outcome is out. -/
structure Rpc.Served (conns : List Bool) (rpc : Rpc) : Prop where
  answered : ∀ result, rpc.outcome = some result → rpc.answer = some result
  sending : rpc.failed = false
  driven : rpc.flushed = true ∨ conns[rpc.conn]? = some true

/-- Up to the drain timeout, the calls that were being dispatched are served. -/
def Drains (s : State) : Prop :=
  s.timedOut = false → ∀ rpc ∈ s.rpcs, rpc.caught = true → rpc.Served s.conns

/-- What a step of its task may not do to a caught call: choose, or send, something other than the
answer of its handler. -/
def Rpc.Heeds (rpc : Rpc) : Grpc.Event → Prop
  | .selected .shutdown => rpc.answer = some (.error shuttingDown)
  | .selected .deadline => rpc.answer = some (.error deadlineExceeded)
  | .openFailed text => rpc.answer = some (.error (.new .internal s!"send_response: {text}"))
  | .sendFailed | .statusFailed => False
  | _ => True

/-- Up to the drain timeout, no connection is left with a caught call that is not out, and no task
of a caught call gives up on its handler. The connections of the calls that a shutdown catches are
driven. -/
def Patient (s : State) (event : Event) : Prop :=
  s.timedOut = false → match event with
    | .shutdown => ∀ rpc ∈ s.rpcs, rpc.dispatching = true → s.conns[rpc.conn]? = some true
    | .left conn _ => ∀ rpc ∈ s.rpcs, rpc.caught = true → rpc.conn = conn → rpc.flushed = true
    | .task i event => ∀ rpc, s.rpcs[i]? = some rpc → rpc.caught = true → rpc.Heeds event
    | _ => True

section Tasks

variable {codec} {rpc : Rpc} {event : Grpc.Event} {task next : CallState}

@[simp] theorem Rpc.after_task : (rpc.after event next).task = some next := by
  unfold Rpc.after
  split <;> rfl

@[simp] theorem Rpc.after_conn : (rpc.after event next).conn = rpc.conn := by
  unfold Rpc.after
  split <;> rfl

@[simp] theorem Rpc.after_call : (rpc.after event next).call = rpc.call := by
  unfold Rpc.after
  split <;> rfl

@[simp] theorem Rpc.after_caught : (rpc.after event next).caught = rpc.caught := by
  unfold Rpc.after
  split <;> rfl

@[simp] theorem Rpc.after_flushed : (rpc.after event next).flushed = rpc.flushed := by
  unfold Rpc.after
  split <;> rfl

/-- Until its result is chosen, a call has no outcome; only a call under way is caught. -/
private structure Rpc.Orderly (rpc : Rpc) : Prop where
  undecided : (∀ task, rpc.task = some task → task.phase.Undecided) →
    rpc.outcome = none ∧ rpc.failed = false ∧ rpc.flushed = false
  underWay : rpc.caught = true → ∃ task, rpc.task = some task ∧ task.phase ≠ .received

private theorem Rpc.answer_eq (started : rpc.task = some task) : rpc.answer = task.result := by
  rw [Rpc.answer, started]
  rfl

private theorem Rpc.answer_after : (rpc.after event next).answer = next.result :=
  Rpc.answer_eq Rpc.after_task

private theorem Rpc.after_admitted (waits : next.phase.Undecided) :
    rpc.after .admitted next = { rpc with task := some next } := by
  unfold Rpc.after
  cases phase : next.phase with
  | opening result =>
    rw [phase] at waits
    exact waits.elim
  | _ => rfl

private theorem Rpc.Orderly.still (orderly : rpc.Orderly) (started : rpc.task = some task)
    (waits : task.phase.Undecided) :
    rpc.outcome = none ∧ rpc.failed = false ∧ rpc.flushed = false :=
  orderly.undecided fun other same => by
    cases started.symm.trans same
    exact waits

private theorem Rpc.Orderly.after (orderly : rpc.Orderly) (started : rpc.task = some task)
    (taken : Grpc.Step codec rpc.call task event next) : (rpc.after event next).Orderly := by
  constructor
  · intro early
    have waits := early next Rpc.after_task
    cases taken with
    | admitted here =>
      rw [Rpc.after_admitted waits]
      exact orderly.still started (by rw [here]; trivial)
    | worked here pending => exact orderly.still started waits
    | expired due once | shutdown | cancelled => exact orderly.still started waits
    | opened here => exact (decided_afterOpening _ waits).elim
    | messageSent here => exact (decided_afterMessage _ _ waits).elim
    | workSelected here ready | shutdownSelected here ready | deadlineSelected here ready
    | openFailed here | sendFailed here | item here | itemFailed here | streamEnded here
    | statusSent here | statusFailed here => exact waits.elim
  · intro caught
    rw [Rpc.after_caught] at caught
    obtain ⟨other, same, past⟩ := orderly.underWay caught
    cases started.symm.trans same
    refine ⟨next, Rpc.after_task, fun early => past ?_⟩
    have waits : next.phase.Undecided := by
      rw [early]
      trivial
    cases taken with
    | admitted here => exact here
    | worked here pending => exact early
    | expired due once | shutdown | cancelled => exact early
    | opened here => exact (decided_afterOpening _ waits).elim
    | messageSent here => exact (decided_afterMessage _ _ waits).elim
    | workSelected here ready | shutdownSelected here ready | deadlineSelected here ready
    | openFailed here | sendFailed here | item here | itemFailed here | streamEnded here
    | statusSent here | statusFailed here => exact waits.elim

/-- A caught call stays served exactly if the step heeds its handler. -/
private theorem served_after_iff {conns : List Bool} (orderly : rpc.Orderly)
    (caught : rpc.caught = true) (started : rpc.task = some task)
    (taken : Grpc.Step codec rpc.call task event next) (served : rpc.Served conns) :
    (rpc.after event next).Served conns ↔ rpc.Heeds event := by
  have driven : (rpc.after event next).flushed = true ∨
      conns[(rpc.after event next).conn]? = some true := by
    rw [Rpc.after_flushed, Rpc.after_conn]
    exact served.driven
  have answer := Rpc.answer_eq started
  have kept (outcome : (rpc.after event next).outcome = rpc.outcome)
      (failed : (rpc.after event next).failed = rpc.failed) (result : next.result = task.result) :
      (rpc.after event next).Served conns := by
    refine ⟨fun chosen same => ?_, failed.trans served.sending, driven⟩
    rw [Rpc.answer_after, result, ← answer]
    rw [outcome] at same
    exact served.answered chosen same
  have replaced {result : Except Status HandlerOutput} (same : next.result = task.result)
      (outcome : (rpc.after event next).outcome = some result)
      (failed : (rpc.after event next).failed = rpc.failed) :
      (rpc.after event next).Served conns ↔ rpc.answer = some result := by
    rw [answer, ← same, ← Rpc.answer_after]
    constructor
    · exact fun held => held.answered result outcome
    · refine fun found => ⟨fun chosen given => ?_, failed.trans served.sending, driven⟩
      rw [outcome] at given
      rw [found, given]
  cases taken with
  | admitted here =>
    obtain ⟨other, same, past⟩ := orderly.underWay caught
    cases started.symm.trans same
    exact (past here).elim
  | worked here pending =>
    have undecided := (orderly.still started (by rw [here]; trivial)).1
    refine iff_of_true ⟨fun chosen same => ?_, served.sending, driven⟩ trivial
    cases undecided.symm.trans same
  | expired due once | shutdown | cancelled => exact iff_of_true (kept rfl rfl rfl) trivial
  | workSelected here ready =>
    refine iff_of_true ((replaced rfl rfl rfl).mpr ?_) trivial
    rw [answer, ready]
  | shutdownSelected here ready => exact replaced rfl rfl rfl
  | deadlineSelected here ready => exact replaced rfl rfl rfl
  | openFailed here => exact replaced rfl rfl rfl
  | opened here | messageSent here | item here | itemFailed here | streamEnded here
  | statusSent here => exact iff_of_true (kept rfl rfl rfl) trivial
  | sendFailed here | statusFailed here =>
    refine iff_of_false (fun held => ?_) id
    cases held.sending

end Tasks

section Runs

variable {codec maxConcurrentRpcs} {s next : State} {event : Event}

private def Inv (s : State) : Prop := ∀ rpc ∈ s.rpcs, rpc.Orderly

private theorem dispatching_iff {rpc : Rpc} :
    rpc.dispatching = true ↔ ∃ task, rpc.task = some task ∧ task.phase = .waiting := by
  unfold Rpc.dispatching
  split
  · rename_i same
    simp [same]
  · rename_i other
    simp only [Bool.false_eq_true, false_iff, not_exists, not_and]
    intro task same waits
    obtain ⟨phase, _, _, _, _⟩ := task
    cases waits
    exact other _ _ _ _ same

private theorem inv_step (inv : Inv s) (step : Step codec maxConcurrentRpcs s event next) :
    Inv next := by
  have replaced {i : Nat} {rpc rpc' : Rpc} (found : s.rpcs[i]? = some rpc)
      (orderly : rpc.Orderly → rpc'.Orderly) : ∀ other ∈ s.rpcs.set i rpc', other.Orderly := by
    intro other member
    rcases List.mem_or_eq_of_mem_set member with old | rfl
    · exact inv other old
    · exact orderly (inv rpc (List.mem_of_getElem? found))
  cases step with
  | shutdown =>
    intro other member
    obtain ⟨rpc, inside, rfl⟩ := List.mem_map.mp member
    obtain ⟨undecided, underWay⟩ := inv rpc inside
    refine ⟨undecided, fun caught => ?_⟩
    rcases Bool.or_eq_true _ _ |>.mp caught with before | now
    · exact underWay before
    · obtain ⟨task, same, waits⟩ := dispatching_iff.mp now
      exact ⟨task, same, by rw [waits]; nofun⟩
  | connected | stopped | left | drained | drainTimeout => exact inv
  | requested driven =>
    intro other member
    rcases List.mem_append.mp member with old | new
    · exact inv other old
    · rw [List.mem_singleton.mp new]
      exact ⟨fun _ => ⟨rfl, rfl, rfl⟩, nofun⟩
  | permitted found queued room =>
    refine replaced found fun orderly => ⟨fun _ => ?_, fun caught => ?_⟩
    · exact orderly.undecided fun task same => by cases queued.symm.trans same
    · obtain ⟨task, same, _⟩ := orderly.underWay caught
      cases queued.symm.trans same
  | task found started told taken => exact replaced found fun orderly => orderly.after started taken
  | flushed found driven started ended sent =>
    refine replaced found fun orderly => ⟨fun early => ?_, orderly.underWay⟩
    have waits := early _ started
    rw [ended] at waits
    exact waits.elim

private theorem Rpc.served_noticed {rpc : Rpc} {conns : List Bool} :
    rpc.noticed.Served conns ↔ rpc.Served conns :=
  ⟨fun ⟨answered, sending, driven⟩ => ⟨answered, sending, driven⟩,
    fun ⟨answered, sending, driven⟩ => ⟨answered, sending, driven⟩⟩

/-- A call that waits for its handler is served as long as its connection is driven. -/
private theorem served_of_dispatching {rpc : Rpc} {conns : List Bool} (orderly : rpc.Orderly)
    (dispatching : rpc.dispatching = true) :
    rpc.Served conns ↔ conns[rpc.conn]? = some true := by
  obtain ⟨task, started, waits⟩ := dispatching_iff.mp dispatching
  obtain ⟨outcome, failed, flushed⟩ := orderly.still started (by rw [waits]; trivial)
  constructor
  · intro served
    refine served.driven.resolve_left fun out => ?_
    cases flushed.symm.trans out
  · refine fun driven => ⟨fun result same => ?_, failed, .inr driven⟩
    cases outcome.symm.trans same

/-- When one call changes, it decides whether the calls are still served. -/
private theorem drains_set {conns : List Bool} {i : Nat} {rpc rpc' : Rpc}
    (found : s.rpcs[i]? = some rpc)
    (rest : ∀ other ∈ s.rpcs, other.caught = true → other.Served conns) :
    (∀ other ∈ s.rpcs.set i rpc', other.caught = true → other.Served conns) ↔
      (rpc'.caught = true → rpc'.Served conns) := by
  constructor
  · intro all
    apply all
    obtain ⟨bound, _⟩ := List.getElem?_eq_some_iff.mp found
    exact List.mem_set bound _
  · intro one other member
    rcases List.mem_or_eq_of_mem_set member with old | rfl
    · exact rest other old
    · exact one

private theorem driven_append {conns : List Bool} {conn : Nat}
    (driven : conns[conn]? = some true) : (conns ++ [true])[conn]? = some true := by
  obtain ⟨bound, _⟩ := List.getElem?_eq_some_iff.mp driven
  rw [List.getElem?_append_left bound, driven]

private theorem drains_shutdown (inv : Inv s) (served : ∀ rpc ∈ s.rpcs, rpc.caught = true →
    rpc.Served s.conns) :
    (∀ rpc ∈ s.rpcs.map Rpc.noticed, rpc.caught = true → rpc.Served s.conns) ↔
      ∀ rpc ∈ s.rpcs, rpc.dispatching = true → s.conns[rpc.conn]? = some true := by
  constructor
  · intro all rpc member dispatching
    have noticed : rpc.noticed.caught = true := by
      rw [Rpc.noticed, dispatching, Bool.or_true]
    have held := all rpc.noticed (List.mem_map_of_mem member) noticed
    exact (served_of_dispatching (inv rpc member) dispatching).mp (Rpc.served_noticed.mp held)
  · intro all other member caught
    obtain ⟨rpc, inside, rfl⟩ := List.mem_map.mp member
    apply Rpc.served_noticed.mpr
    rcases Bool.or_eq_true _ _ |>.mp caught with before | now
    · exact served rpc inside before
    · exact (served_of_dispatching (inv rpc inside) now).mpr (all rpc inside now)

private theorem drains_left {conn : Nat} (served : ∀ rpc ∈ s.rpcs, rpc.caught = true →
    rpc.Served s.conns) :
    (∀ rpc ∈ s.rpcs, rpc.caught = true → rpc.Served (s.conns.set conn false)) ↔
      ∀ rpc ∈ s.rpcs, rpc.caught = true → rpc.conn = conn → rpc.flushed = true := by
  constructor
  · intro all rpc member caught same
    refine (all rpc member caught).driven.resolve_right fun driven => ?_
    rw [same] at driven
    have bound : conn < s.conns.length := by
      simpa using (List.getElem?_eq_some_iff.mp driven).choose
    simp [List.getElem?_set_self bound] at driven
  · intro all rpc member caught
    obtain ⟨answered, sending, driven⟩ := served rpc member caught
    refine ⟨answered, sending, ?_⟩
    by_cases same : rpc.conn = conn
    · exact .inl (all rpc member caught same)
    · rw [List.getElem?_set_ne fun equal => same equal.symm]
      exact driven

/-- A step keeps the calls served exactly if it is patient. -/
private theorem drains_step (inv : Inv s) (drains : Drains s)
    (step : Step codec maxConcurrentRpcs s event next) : Drains next ↔ Patient s event := by
  by_cases timedOut : s.timedOut = true
  · have late : next.timedOut = true := by cases step <;> first | exact timedOut | rfl
    exact iff_of_true (fun early => by cases late.symm.trans early)
      (fun early => by cases timedOut.symm.trans early)
  have early := Bool.eq_false_iff.mpr timedOut
  have served := drains early
  cases step with
  | shutdown =>
    have decided := drains_shutdown inv served
    exact ⟨fun held _ => decided.mp (held early), fun held _ => decided.mpr (held early)⟩
  | connected here =>
    refine iff_of_true (fun _ rpc member caught => ?_) fun _ => trivial
    obtain ⟨answered, sending, driven⟩ := served rpc member caught
    exact ⟨answered, sending, driven.imp_right driven_append⟩
  | stopped | drained => exact iff_of_true (fun _ => served) fun _ => trivial
  | requested driven =>
    refine iff_of_true (fun _ rpc member caught => ?_) fun _ => trivial
    rcases List.mem_append.mp member with old | new
    · exact served rpc old caught
    · rw [List.mem_singleton.mp new] at caught
      cases caught
  | @permitted i rpc found queued room =>
    refine iff_of_true (fun _ => (drains_set found served).mpr fun caught => ?_) fun _ => trivial
    obtain ⟨task, same, _⟩ := (inv rpc (List.mem_of_getElem? found)).underWay caught
    cases queued.symm.trans same
  | @task i rpc event task after found started told taken =>
    have member := List.mem_of_getElem? found
    have decided := @drains_set s s.conns i rpc (rpc.after event after) found served
    constructor
    · intro held _ other same caught
      cases found.symm.trans same
      apply (served_after_iff (inv rpc member) caught started taken (served rpc member caught)).mp
      exact decided.mp (held early) (Rpc.after_caught.trans caught)
    · refine fun held _ => decided.mpr fun caught => ?_
      rw [Rpc.after_caught] at caught
      apply (served_after_iff (inv rpc member) caught started taken (served rpc member caught)).mpr
      exact held early rpc found caught
  | @flushed i rpc task found driven started ended sent =>
    refine iff_of_true (fun _ => (drains_set found served).mpr fun caught => ?_) fun _ => trivial
    obtain ⟨answered, sending, _⟩ := served rpc (List.mem_of_getElem? found) caught
    exact ⟨answered, sending, .inl rfl⟩
  | @left conn cause driven cancelled =>
    have decided := @drains_left s conn served
    exact ⟨fun held _ => decided.mp (held early), fun held _ => decided.mpr (held early)⟩
  | drainTimeout here => exact iff_of_true (fun early => by cases early) fun _ => trivial

/-- An event has one outcome. -/
private theorem Step.unique (s : State) (event : Event) (first second : State)
    (one : Step codec maxConcurrentRpcs s event first)
    (other : Step codec maxConcurrentRpcs s event second) : first = second := by
  cases one with
  | permitted found =>
    cases other with
    | permitted found' =>
      cases found.symm.trans found'
      rfl
  | task found started told taken =>
    cases other with
    | task found' started' told' taken' =>
      cases found.symm.trans found'
      cases started.symm.trans started'
      cases Grpc.Step.unique _ _ _ _ taken taken'
      rfl
  | flushed found =>
    cases other with
    | flushed found' =>
      cases found.symm.trans found'
      rfl
  | shutdown | connected | stopped | requested | left | drained | drainTimeout =>
    cases other
    rfl

end Runs

private theorem inv_start : Inv {} := fun _ member => nomatch member

private theorem drains_start : Drains {} := fun _ _ member => nomatch member

/-- In a run, every call that a shutdown finds in dispatch is answered with the result of its
handler, over a connection that is driven until then, exactly if no step of the run is impatient. -/
theorem server_drains_iff {codec : GzipCodec} {maxConcurrentRpcs : Nat} {events : List Event}
    {final : State} (run : Trace (Step codec maxConcurrentRpcs) {} events final) :
    (∀ before after s, events = before ++ after →
      Trace (Step codec maxConcurrentRpcs) {} before s → Drains s) ↔
      Throughout (Step codec maxConcurrentRpcs) Patient {} events := by
  have orderly {before : List Event} {s : State}
      (reached : Trace (Step codec maxConcurrentRpcs) {} before s) : Inv s :=
    reached.invariant (fun _ _ _ _ _ _ => trivial) inv_start
      fun _ _ _ inv (_ : True) taken => inv_step inv taken
  constructor
  · intro all before event after s same reached
    rw [same] at run
    obtain ⟨middle, next, first, taken, _⟩ := run.split
    cases Trace.unique Step.unique first reached
    have here := all before (event :: after) s same reached
    refine (drains_step (orderly reached) here taken).mp (all (before ++ [event]) after next ?_ ?_)
    · rw [same, List.append_assoc, List.singleton_append]
    · exact Trace.append_iff.mpr ⟨s, reached, .cons taken (.nil next)⟩
  · intro all before after s same reached
    rw [same] at all
    have held := @Trace.invariant _ _ _ Patient (fun s => Inv s ∧ Drains s) _ _ _ reached
      all.before ⟨inv_start, drains_start⟩ fun s event next held patient taken =>
        ⟨inv_step held.1 taken, (drains_step held.1 held.2 taken).mpr patient⟩
    exact held.2

/-- A unary call on a server without a security policy. -/
private def plainCall : Call where
  path := "/s/m"
  kind := .unary
  config := {}
  ctx := ⟨{}, none, false, none⟩
  policy := none
  handled := true

/-- The call answers after the shutdown, and the connection waits for its status. -/
private def drained : List Event :=
  [.connected, .requested 0 plainCall, .permitted 0, .task 0 .admitted, .shutdown,
    .task 0 (.worked (.ok (some [])) (.ok [1])), .task 0 (.selected .work), .task 0 .opened,
    .task 0 (.messageSent [1]), .task 0 (.statusSent (.new .ok "")), .flushed 0,
    .left 0 .shutdown]

/-- The task of the call notices the shutdown too, and drops the answer of its handler. -/
private def dropped : List Event :=
  [.connected, .requested 0 plainCall, .permitted 0, .task 0 .admitted, .shutdown,
    .task 0 .shutdown, .task 0 (.worked (.ok (some [])) (.ok [1])), .task 0 (.selected .shutdown)]

private theorem drained_trace : ∃ final, Trace (Step sampleGzip 1) {} drained final :=
  ⟨_, .cons (.connected rfl) (.cons (.requested rfl) (.cons (.permitted rfl rfl (by decide))
    (.cons (.task rfl rfl nofun (.admitted rfl)) (.cons .shutdown
    (.cons (.task rfl rfl nofun (.worked rfl rfl)) (.cons (.task rfl rfl nofun (.workSelected rfl rfl))
    (.cons (.task rfl rfl nofun (.opened rfl)) (.cons (.task rfl rfl nofun (.messageSent rfl rfl))
    (.cons (.task rfl rfl nofun (.statusSent rfl)) (.cons (.flushed rfl rfl rfl rfl rfl)
    (.cons (.left rfl fun _ => rfl) (.nil _))))))))))))⟩

private theorem drained_patient : Throughout (Step sampleGzip 1) Patient {} drained := by
  refine .follow Step.unique (fun _ => trivial) (.connected rfl) ?_
  refine .follow Step.unique (fun _ => trivial) (.requested rfl) ?_
  refine .follow Step.unique (fun _ => trivial) (.permitted rfl rfl (by decide)) ?_
  refine .follow Step.unique (fun _ _ _ _ => trivial) (.task rfl rfl nofun (.admitted rfl)) ?_
  refine .follow Step.unique (fun _ rpc member _ => ?_) .shutdown ?_
  · rw [List.mem_singleton.mp member]
    rfl
  refine .follow Step.unique (fun _ _ _ _ => trivial) (.task rfl rfl nofun (.worked rfl rfl)) ?_
  refine .follow Step.unique (fun _ _ _ _ => trivial) (.task rfl rfl nofun (.workSelected rfl rfl)) ?_
  refine .follow Step.unique (fun _ _ _ _ => trivial) (.task rfl rfl nofun (.opened rfl)) ?_
  refine .follow Step.unique (fun _ _ _ _ => trivial) (.task rfl rfl nofun (.messageSent rfl rfl)) ?_
  refine .follow Step.unique (fun _ _ _ _ => trivial) (.task rfl rfl nofun (.statusSent rfl)) ?_
  refine .follow Step.unique (fun _ => trivial) (.flushed rfl rfl rfl rfl rfl) ?_
  refine .follow Step.unique (fun _ rpc member _ _ => ?_) (.left rfl fun _ => rfl) .nil
  rw [List.mem_singleton.mp member]

theorem server_drains_drained :
    ∃ final, Trace (Step sampleGzip 1) {} drained final ∧ Drains final := by
  obtain ⟨final, trace⟩ := drained_trace
  refine ⟨final, trace, ?_⟩
  exact (server_drains_iff trace).mpr drained_patient drained [] final (List.append_nil _).symm trace

private theorem dropped_trace : ∃ final, Trace (Step sampleGzip 1) {} dropped final ∧
    final.timedOut = false ∧ ∃ rpc, final.rpcs = [rpc] ∧ rpc.caught = true ∧
      rpc.answer = some (.ok ⟨some [1], false, .new .ok ""⟩) ∧
      rpc.outcome = some (.error shuttingDown) :=
  ⟨_, .cons (.connected rfl) (.cons (.requested rfl) (.cons (.permitted rfl rfl (by decide))
    (.cons (.task rfl rfl nofun (.admitted rfl)) (.cons .shutdown
    (.cons (.task rfl rfl (fun _ => rfl) .shutdown)
    (.cons (.task rfl rfl nofun (.worked rfl rfl))
    (.cons (.task rfl rfl nofun (.shutdownSelected rfl rfl)) (.nil _)))))))),
    rfl, _, rfl, rfl, rfl, rfl⟩

/-- The handler finishes and no drain timeout has passed; the client is told `UNAVAILABLE`. -/
theorem not_server_drains_dropped : ∃ final, Trace (Step sampleGzip 1) {} dropped final ∧
    final.timedOut = false ∧ ¬ Drains final := by
  obtain ⟨final, trace, early, rpc, rpcs, caught, answer, outcome⟩ := dropped_trace
  refine ⟨final, trace, early, fun drains => ?_⟩
  have member : rpc ∈ final.rpcs := by rw [rpcs]; exact List.mem_singleton_self rpc
  have same := (drains early rpc member caught).answered _ outcome
  cases answer.symm.trans same

end Shutdown

end TptProto.Grpc
