import TptProto.Grpc.HandleRequest
import TptProto.Grpc.Codec

/-! Whether the deadline of a call binds the server until the terminal status is sent. -/

namespace TptProto.Grpc

open TptProto.Core TptProto.Foundation

variable (codec : GzipCodec) (call : Call)

/-- If the deadline expires before the terminal status is sent, no message is sent later, and the
status that is sent is `DEADLINE_EXCEEDED` and finds the token of the context cancelled. -/
def DeadlineBinds (events : List Event) : Prop :=
  ∀ before after, events = before ++ .expired :: after →
    (∀ status, .statusSent status ∉ before) →
      (∀ raw, .messageSent raw ∉ after) ∧
      ∀ sent later status, after = sent ++ .statusSent status :: later →
        status.code = .deadlineExceeded ∧
          ∀ s, Trace (Step codec call) call.start (before ++ .expired :: sent) s →
            s.cancelled = true

/-- Expiry comes before the result is chosen or after the call, and then decides the result; the
handler has cancelled the token itself by the time the status is sent. -/
def Timely (s : CallState) : Event → Prop
  | .expired => s.phase.Undecided ∨ s.phase = .done
  | .admitted => s.expired = true → call.admission = .waiting
  | .selected .work | .selected .shutdown | .openFailed _ => s.expired = false
  | .statusSent _ => s.expired = true → s.cancelled = true
  | _ => True

/-- A status by which a policy, a handler or a stream reports an expiry itself. -/
def Status.late (status : Status) : Prop := status.code = .deadlineExceeded

/-- Nothing that the task is handed reports an expiry. -/
def Event.Silent : Event → Prop
  | .worked request answer =>
    (∀ status, request = .error status → ¬ status.late) ∧
      ∀ status, answer = .error status → ¬ status.late
  | .itemFailed status => ¬ status.late
  | _ => True

section Bound

variable {codec call}

/-- What is left of a call whose deadline expired in time. -/
def Expired (s : CallState) : Prop :=
  s.expired = true ∧ (s.phase.Undecided ∨ s.phase = .opening (.error deadlineExceeded) ∨
    s.phase = .closing deadlineExceeded ∨ s.phase = .done)

private theorem expired_step {s next : CallState} {event : Event} (expired : Expired s)
    (timely : Timely call s event) (step : Step codec call s event next) :
    Expired next ∧ (∀ raw, event ≠ .messageSent raw) ∧
      ∀ status, event = .statusSent status →
        status.code = .deadlineExceeded ∧ s.cancelled = true := by
  obtain ⟨set, phase⟩ := expired
  cases step with
  | admitted here => exact ⟨⟨set, .inl (by rw [timely set]; trivial)⟩, nofun, nofun⟩
  | worked here pending => exact ⟨⟨set, phase⟩, nofun, nofun⟩
  | expired due once => rw [set] at once; cases once
  | shutdown => exact ⟨⟨set, phase⟩, nofun, nofun⟩
  | cancelled => exact ⟨⟨set, phase⟩, nofun, nofun⟩
  | workSelected here ready | shutdownSelected here ready | openFailed here =>
    rw [show s.expired = false from timely] at set
    cases set
  | deadlineSelected here ready => exact ⟨⟨set, .inr (.inl rfl)⟩, nofun, nofun⟩
  | opened here =>
    rw [here] at phase
    rcases phase with never | chosen | never | never
    · cases never
    · cases chosen
      exact ⟨⟨set, .inr (.inr (.inl rfl))⟩, nofun, nofun⟩
    · cases never
    · cases never
  | messageSent here | sendFailed here | item here | itemFailed here | streamEnded here =>
    rw [here] at phase
    rcases phase with never | never | never | never <;> cases never
  | statusSent here =>
    rw [here] at phase
    rcases phase with never | never | chosen | never
    · cases never
    · cases never
    · cases chosen
      refine ⟨⟨set, .inr (.inr (.inr rfl))⟩, nofun, ?_⟩
      intro status same
      cases same
      exact ⟨rfl, timely set⟩
    · cases never
  | statusFailed here => exact ⟨⟨set, .inr (.inr (.inr rfl))⟩, nofun, nofun⟩

/-- After an expiry in time the task only closes the call. -/
private theorem expired_of_trace {before sent after : List Event} {s : CallState}
    (all : Throughout (Step codec call) (Timely call) call.start
      ((before ++ .expired :: sent) ++ after))
    (trace : Trace (Step codec call) call.start (before ++ .expired :: sent) s) : Expired s := by
  obtain ⟨middle, next, first, taken, later⟩ := trace.split
  have timely : Timely call middle .expired := by
    apply all before .expired (sent ++ after) middle _ first
    rw [List.append_assoc, List.cons_append]
  have reached : Trace (Step codec call) call.start (before ++ [.expired]) next :=
    Trace.append_iff.mpr ⟨middle, first, .cons taken (.nil next)⟩
  have entered : Expired next := by
    cases taken with
    | expired due once =>
      refine ⟨rfl, ?_⟩
      rcases timely with undecided | ended
      · exact .inl undecided
      · exact .inr (.inr (.inr ended))
  have rest : Throughout (Step codec call) (Timely call) next sent := by
    have whole := all.before
    rw [← List.singleton_append, ← List.append_assoc] at whole
    exact whole.after reached
  exact later.invariant rest entered fun _ _ _ expired timely step =>
    (expired_step expired timely step).1

/-- Every run whose steps are all timely is bound by the deadline. -/
theorem binds_of_timely {events : List Event} {final : CallState}
    (trace : Trace (Step codec call) call.start events final)
    (all : Throughout (Step codec call) (Timely call) call.start events) :
    DeadlineBinds codec call events := by
  intro before after same _
  subst same
  constructor
  · intro raw member
    obtain ⟨sent, rest, same⟩ := List.append_of_mem member
    have regrouped : before ++ .expired :: after =
        (before ++ .expired :: sent) ++ .messageSent raw :: rest := by
      rw [same, List.append_assoc, List.cons_append]
    rw [regrouped] at trace all
    obtain ⟨middle, next, first, taken, _⟩ := trace.split
    have timely := all _ _ _ middle rfl first
    exact (expired_step (expired_of_trace all first) timely taken).2.1 raw rfl
  · intro sent later status same
    have regrouped : before ++ .expired :: after =
        (before ++ .expired :: sent) ++ .statusSent status :: later := by
      rw [same, List.append_assoc, List.cons_append]
    rw [regrouped] at trace all
    obtain ⟨middle, next, first, taken, _⟩ := trace.split
    have timely := all _ _ _ middle rfl first
    have closes := (expired_step (expired_of_trace all first) timely taken).2.2 status rfl
    refine ⟨closes.1, ?_⟩
    intro s reached
    exact all _ _ _ s rfl reached (expired_of_trace all reached).1

end Bound

section Sharp

variable {codec call}

/-- No status that the phase carries reports an expiry. -/
def Phase.Quiet : Phase → Prop
  | .received | .waiting | .done => True
  | .opening (.ok output) => ¬ output.status.late
  | .opening (.error status) | .sending _ _ status | .streaming status | .closing status =>
    ¬ status.late

private theorem quiet_afterMessage {stream : Bool} {status : Status} (quiet : ¬ status.late) :
    (afterMessage stream status).Quiet := by
  cases stream <;> exact quiet

private theorem quiet_afterOpening {result : Except Status HandlerOutput}
    (quiet : (Phase.opening result).Quiet) : (afterOpening result).Quiet := by
  cases result with
  | error status => exact quiet
  | ok output =>
    obtain ⟨message, stream, status⟩ := output
    cases message with
    | none => exact quiet_afterMessage quiet
    | some raw => exact quiet

private theorem quiet_dispatch {kind : MethodKind} {path : String}
    {request : Except Status (Option (List UInt8))} {answer : Except Status (List UInt8)}
    (silent : (Event.worked request answer).Silent) :
    (Phase.opening (dispatch kind path request answer)).Quiet := by
  obtain ⟨readable, answered⟩ := silent
  have reported {result : Except Status (List UInt8)} {output : List UInt8 → HandlerOutput}
      (quiet : ∀ status, result = .error status → ¬ status.late)
      (fine : ∀ raw, ¬ (output raw).status.late) :
      (Phase.opening (result.bind fun raw => .ok (output raw))).Quiet := by
    cases result with
    | error status => exact quiet status rfl
    | ok raw => exact fine raw
  have named : ∀ status, methodName path = .error status → ¬ status.late := by
    intro status failed
    unfold methodName at failed
    split at failed
    · cases failed
      nofun
    · cases failed
  unfold dispatch
  cases name : methodName path with
  | error status => exact named status name
  | ok method =>
    cases kind with
    | clientStreaming | bidiStreaming => exact reported answered nofun
    | unary | serverStreaming =>
      cases request with
      | error status => exact readable status rfl
      | ok read =>
        cases read with
        | none => nofun
        | some message => exact reported answered nofun

/-- No status that the task holds reports an expiry, unless the deadline has expired. -/
def Calm (s : CallState) : Prop :=
  (∀ result, s.result = some result → (Phase.opening result).Quiet) ∧
    (s.expired = false → s.phase.Quiet)

/-- The result is chosen, and it is not the expiry. -/
def Settled (s : CallState) : Prop := s.phase.Quiet ∧ ¬ s.phase.Undecided

private theorem settled_step {s next : CallState} {event : Event} (settled : Settled s)
    (silent : event.Silent) (step : Step codec call s event next) :
    Settled next ∧ ∀ status, event = .statusSent status → ¬ status.late := by
  obtain ⟨quiet, decided⟩ := settled
  cases step with
  | admitted here | worked here | workSelected here | shutdownSelected here
  | deadlineSelected here =>
    rw [here] at decided
    exact (decided trivial).elim
  | expired | shutdown | cancelled => exact ⟨⟨quiet, decided⟩, nofun⟩
  | opened here =>
    rw [here] at quiet
    exact ⟨⟨quiet_afterOpening quiet, decided_afterOpening _⟩, nofun⟩
  | openFailed here => exact ⟨⟨nofun, id⟩, nofun⟩
  | messageSent here =>
    rw [here] at quiet
    exact ⟨⟨quiet_afterMessage quiet, decided_afterMessage _ _⟩, nofun⟩
  | item here | streamEnded here =>
    rw [here] at quiet
    exact ⟨⟨quiet, id⟩, nofun⟩
  | itemFailed here => exact ⟨⟨silent, id⟩, nofun⟩
  | statusSent here =>
    rw [here] at quiet
    refine ⟨⟨trivial, id⟩, ?_⟩
    intro status same
    cases same
    exact quiet
  | sendFailed here | statusFailed here => exact ⟨⟨trivial, id⟩, nofun⟩

private theorem settled_trace {s final : CallState} {events : List Event} (settled : Settled s)
    (silent : ∀ event ∈ events, event.Silent)
    (trace : Trace (Step codec call) s events final) {status : Status}
    (sent : .statusSent status ∈ events) : ¬ status.late := by
  induction trace with
  | nil => cases sent
  | @cons s next final event events taken _ inductionHypothesis =>
    have one := settled_step settled (silent event List.mem_cons_self) taken
    rcases List.mem_cons.mp sent with same | later
    · exact one.2 status same.symm
    · exact inductionHypothesis one.1 (fun other member =>
        silent other (List.mem_cons_of_mem _ member)) later

private theorem quiet_admission (policy : ∀ status, call.policy = some (.error status) → ¬ status.late) :
    call.admission.Quiet := by
  unfold Call.admission
  split
  · rename_i status refused
    exact policy status refused
  · split
    · trivial
    · nofun

private theorem calm_step (policy : ∀ status, call.policy = some (.error status) → ¬ status.late)
    {s next : CallState} {event : Event} (calm : Calm s) (silent : event.Silent)
    (step : Step codec call s event next) : Calm next := by
  obtain ⟨results, quiet⟩ := calm
  have settles : ¬ s.phase.Undecided → next.result = s.result → next.expired = s.expired →
      Calm next := by
    intro decided same kept
    refine ⟨by rw [same]; exact results, ?_⟩
    intro unset
    rw [kept] at unset
    exact (settled_step ⟨quiet unset, decided⟩ silent step).1.1
  have decided {phase : Phase} (here : s.phase = phase) (chosen : ¬ phase.Undecided) :
      ¬ s.phase.Undecided := by
    rw [here]
    exact chosen
  cases step with
  | admitted here => exact ⟨results, fun _ => quiet_admission policy⟩
  | worked here pending =>
    refine ⟨?_, quiet⟩
    intro result same
    cases same
    exact quiet_dispatch silent
  | expired => exact ⟨results, nofun⟩
  | shutdown | cancelled => exact ⟨results, quiet⟩
  | workSelected here ready => exact ⟨results, fun _ => results _ ready⟩
  | shutdownSelected here ready => exact ⟨results, fun _ => nofun⟩
  | deadlineSelected here ready =>
    refine ⟨results, ?_⟩
    intro unset
    rw [ready] at unset
    cases unset
  | opened here | openFailed here | messageSent here | sendFailed here | item here
  | itemFailed here | streamEnded here | statusSent here | statusFailed here =>
    exact settles (decided here id) rfl rfl

private theorem done_of_sent {s final : CallState} {events : List Event}
    (trace : Trace (Step codec call) s events final)
    (ended : s.phase = .done ∨ ∃ status, .statusSent status ∈ events) : final.phase = .done := by
  induction trace with
  | nil =>
    rcases ended with ended | ⟨status, never⟩
    · exact ended
    · cases never
  | @cons s next final event events taken _ inductionHypothesis =>
    apply inductionHypothesis
    rcases ended with ended | ⟨status, member⟩
    · left
      cases taken with
      | expired | shutdown | cancelled => exact ended
      | statusFailed | statusSent | sendFailed => rfl
      | admitted here | worked here | workSelected here | shutdownSelected here
      | deadlineSelected here | opened here | openFailed here | messageSent here | item here
      | itemFailed here | streamEnded here =>
        rw [here] at ended
        cases ended
    · rcases List.mem_cons.mp member with same | later
      · cases same
        cases taken
        exact .inl rfl
      · exact .inr ⟨status, later⟩

private theorem expired_mem {s final : CallState} {events : List Event}
    (trace : Trace (Step codec call) s events final) (unset : s.expired = false)
    (set : final.expired = true) : .expired ∈ events := by
  induction trace with
  | nil =>
    rw [unset] at set
    cases set
  | @cons s next final event events taken _ inductionHypothesis =>
    cases taken with
    | expired => exact List.mem_cons_self
    | _ => exact List.mem_cons_of_mem _ (inductionHypothesis unset set)

/-- The status that closes a bound call after an expiry reports it. -/
private theorem late_of_binds {events early rest : List Event} {closing : Status}
    (binds : DeadlineBinds codec call events) (same : events = early ++ .expired :: rest)
    (unsent : ∀ status, .statusSent status ∉ early) (ended : .statusSent closing ∈ events) :
    closing.late := by
  rw [same] at ended
  rcases List.mem_append.mp ended with never | member
  · exact (unsent closing never).elim
  · rcases List.mem_cons.mp member with never | member
    · cases never
    · obtain ⟨sent, later, split⟩ := List.append_of_mem member
      exact ((binds early rest same unsent).2 sent later closing split).1

/-- An expiry that is noticed before the end has no status before it. -/
private theorem early_expiry {before : List Event} {s : CallState}
    (reached : Trace (Step codec call) call.start before s) (set : s.expired = true)
    (running : s.phase ≠ .done) :
    ∃ early rest, before = early ++ .expired :: rest ∧
      ∀ status, .statusSent status ∉ early := by
  obtain ⟨early, rest, split⟩ := List.append_of_mem (expired_mem reached rfl set)
  refine ⟨early, rest, split, ?_⟩
  intro status member
  apply running
  apply done_of_sent reached (.inr ⟨status, _⟩)
  rw [split]
  exact List.mem_append_left _ member

private theorem calm_of_trace
    (policy : ∀ status, call.policy = some (.error status) → ¬ status.late)
    {s final : CallState} {events : List Event} (trace : Trace (Step codec call) s events final)
    (silent : ∀ event ∈ events, event.Silent) (calm : Calm s) : Calm final := by
  induction trace with
  | nil => exact calm
  | cons taken _ inductionHypothesis =>
    apply inductionHypothesis fun other member => silent other (List.mem_cons_of_mem _ member)
    exact calm_step policy calm (silent _ List.mem_cons_self) taken

private theorem settled_undecided_or {s : CallState} (quiet : s.phase.Quiet)
    (untimely : ¬ (s.phase.Undecided ∨ s.phase = .done)) : Settled s ∧ s.phase ≠ .done :=
  ⟨⟨quiet, fun undecided => untimely (.inl undecided)⟩, fun ended => untimely (.inr ended)⟩

/-- A step that is not timely settles the call after an expiry, or sends the status although the
token is not cancelled. -/
private theorem settles_of_untimely
    (policy : ∀ status, call.policy = some (.error status) → ¬ status.late)
    {s next : CallState} {event : Event} (calm : Calm s) (taken : Step codec call s event next)
    (untimely : ¬ Timely call s event) :
    s.phase ≠ .done ∧ (s.expired = true ∨ event = .expired) ∧
      (Settled next ∧ (∀ status, event ≠ .statusSent status) ∨
        s.cancelled = false ∧ ∃ status, event = .statusSent status) := by
  obtain ⟨results, quiet⟩ := calm
  have running {phase : Phase} (here : s.phase = phase) (other : phase ≠ .done) :
      s.phase ≠ .done := by
    rw [here]
    exact other
  cases taken with
  | worked | shutdown | cancelled | deadlineSelected | opened | messageSent | sendFailed | item
  | itemFailed | streamEnded | statusFailed => exact (untimely trivial).elim
  | expired due once =>
    obtain ⟨settled, open'⟩ := settled_undecided_or (quiet once) untimely
    exact ⟨open', .inr rfl, .inl ⟨settled, nofun⟩⟩
  | admitted here =>
    have set : s.expired = true := by
      apply Classical.byContradiction
      intro unset
      exact untimely fun set => (unset set).elim
    have refused : call.admission ≠ .waiting := fun waiting => untimely fun _ => waiting
    refine ⟨running here nofun, .inl set, .inl ⟨⟨quiet_admission policy, ?_⟩, nofun⟩⟩
    intro undecided
    apply refused
    revert undecided
    unfold Call.admission
    split
    · exact False.elim
    · split
      · exact fun _ => rfl
      · exact False.elim
  | workSelected here ready =>
    exact ⟨running here nofun, .inl (Bool.not_eq_false _ ▸ untimely),
      .inl ⟨⟨results _ ready, id⟩, nofun⟩⟩
  | shutdownSelected here ready =>
    exact ⟨running here nofun, .inl (Bool.not_eq_false _ ▸ untimely), .inl ⟨⟨nofun, id⟩, nofun⟩⟩
  | openFailed here =>
    exact ⟨running here nofun, .inl (Bool.not_eq_false _ ▸ untimely), .inl ⟨⟨nofun, id⟩, nofun⟩⟩
  | @statusSent status here =>
    have set : s.expired = true := by
      apply Classical.byContradiction
      intro unset
      exact untimely fun set => (unset set).elim
    have kept : s.cancelled = false := by
      rw [← Bool.not_eq_true]
      exact fun cancelled => untimely fun _ => cancelled
    exact ⟨running here nofun, .inl set, .inr ⟨kept, status, rfl⟩⟩

/-- A run that is bound and ends with a status is timely at every step, if nothing that the
server is handed reports an expiry itself. -/
theorem timely_of_binds (policy : ∀ status, call.policy = some (.error status) → ¬ status.late)
    {events : List Event} {final : CallState} {closing : Status}
    (trace : Trace (Step codec call) call.start events final)
    (silent : ∀ event ∈ events, event.Silent) (ended : .statusSent closing ∈ events)
    (binds : DeadlineBinds codec call events) :
    Throughout (Step codec call) (Timely call) call.start events := by
  intro before event after s same reached
  subst same
  obtain ⟨s', next, first, taken, later⟩ := trace.split
  cases Trace.unique Step.unique reached first
  have calm : Calm s := calm_of_trace policy reached
    (fun other member => silent other (List.mem_append_left _ member))
    ⟨nofun, fun _ => trivial⟩
  apply Classical.byContradiction
  intro untimely
  obtain ⟨running, overdue, consequence⟩ := settles_of_untimely policy calm taken untimely
  have unsent (status : Status) : .statusSent status ∉ before := fun member =>
    running (done_of_sent reached (.inr ⟨status, member⟩))
  obtain ⟨early, rest, same, unsentEarly⟩ : ∃ early rest,
      before ++ event :: after = early ++ .expired :: rest ∧
        ∀ status, .statusSent status ∉ early := by
    rcases overdue with set | same
    · obtain ⟨early, rest, split, unsentEarly⟩ := early_expiry reached set running
      exact ⟨early, rest ++ event :: after, by rw [split]; simp, unsentEarly⟩
    · exact ⟨before, after, by rw [same], unsent⟩
  rcases consequence with ⟨settled, other⟩ | ⟨kept, status, isStatus⟩
  · -- the status comes later and is none that reports an expiry
    have sentAfter : .statusSent closing ∈ after := by
      rcases List.mem_append.mp ended with never | member
      · exact (unsent closing never).elim
      · rcases List.mem_cons.mp member with never | member
        · exact (other closing never.symm).elim
        · exact member
    apply settled_trace settled _ later sentAfter
    · exact late_of_binds binds same unsentEarly ended
    · exact fun other member => silent other
        (List.mem_append_right _ (List.mem_cons_of_mem _ member))
  · subst isStatus
    rcases overdue with set | never
    · obtain ⟨early, rest, split, unsentEarly⟩ := early_expiry reached set running
      subst split
      have bound := (binds early (rest ++ .statusSent status :: after) (by simp) unsentEarly).2
        rest after status rfl
      rw [bound.2 s reached] at kept
      cases kept
    · cases never

end Sharp

/-- The deadline binds every run whose steps are all timely. Where the status is sent and nothing
that the server is handed reports an expiry itself, it binds no other run. -/
theorem deadline_binds_iff {events : List Event} {final : CallState}
    (trace : Trace (Step codec call) call.start events final) :
    (Throughout (Step codec call) (Timely call) call.start events →
        DeadlineBinds codec call events) ∧
      ((∀ status, call.policy = some (.error status) → ¬ status.late) →
        (∀ event ∈ events, event.Silent) → (∃ closing, .statusSent closing ∈ events) →
          (DeadlineBinds codec call events ↔
            Throughout (Step codec call) (Timely call) call.start events)) := by
  refine ⟨binds_of_timely trace, ?_⟩
  intro policy silent ended
  obtain ⟨closing, ended⟩ := ended
  exact ⟨timely_of_binds policy trace silent ended, binds_of_timely trace⟩

/-- A streaming call with a deadline, on a server without a security policy. -/
def streamingCall : Call where
  path := "/s/m"
  kind := .serverStreaming
  config := {}
  ctx := ⟨{}, some ⟨1700000000, 0⟩, false, none⟩
  policy := none
  handled := true

/-- The deadline expires while the handler works, and the handler cancels its token. -/
def cutShort : List Event :=
  [.admitted, .expired, .cancelled, .selected .deadline, .opened, .statusSent deadlineExceeded]

private theorem cutShort_trace :
    Trace (Step sampleGzip streamingCall) streamingCall.start cutShort
      ⟨.done, none, true, false, true⟩ :=
  .cons (.admitted rfl) (.cons (.expired rfl rfl) (.cons .cancelled (.cons (.deadlineSelected rfl rfl)
    (.cons (.opened rfl) (.cons (.statusSent rfl) (.nil _))))))

private theorem cutShort_timely :
    Throughout (Step sampleGzip streamingCall) (Timely streamingCall) streamingCall.start
      cutShort := by
  refine .cons nofun fun _ admitted => ?_
  cases admitted
  refine .cons (.inl trivial) fun _ expired => ?_
  cases expired
  refine .cons trivial fun _ cancelled => ?_
  cases cancelled
  refine .cons trivial fun _ selected => ?_
  cases selected
  refine .cons trivial fun _ opened => ?_
  cases opened
  exact .cons (fun _ => rfl) fun _ _ => .nil

theorem cutShort_binds : DeadlineBinds sampleGzip streamingCall cutShort :=
  (deadline_binds_iff _ _ cutShort_trace).1 cutShort_timely

/-- The deadline expires between two messages of a stream. -/
def overrun : List Event :=
  [.admitted, .worked (.ok (some [])) (.ok []), .selected .work, .opened, .item [1],
    .messageSent [1], .expired, .item [2], .messageSent [2], .streamEnded,
    .statusSent (.new .ok "")]

private theorem overrun_trace :
    Trace (Step sampleGzip streamingCall) streamingCall.start overrun
      ⟨.done, some (.ok ⟨none, true, .new .ok ""⟩), true, false, false⟩ :=
  .cons (.admitted rfl) (.cons (.worked rfl rfl) (.cons (.workSelected rfl rfl)
    (.cons (.opened rfl) (.cons (.item rfl) (.cons (.messageSent rfl rfl) (.cons (.expired rfl rfl)
      (.cons (.item rfl) (.cons (.messageSent rfl rfl) (.cons (.streamEnded rfl)
        (.cons (.statusSent rfl) (.nil _)))))))))))

/-- The second message and the status are sent as if nothing had happened. -/
theorem not_deadline_overrun :
    (∃ final, Trace (Step sampleGzip streamingCall) streamingCall.start overrun final) ∧
      ¬ DeadlineBinds sampleGzip streamingCall overrun := by
  refine ⟨⟨_, overrun_trace⟩, ?_⟩
  intro binds
  have unsent : ∀ status, Event.statusSent status ∉
      ([.admitted, .worked (.ok (some [])) (.ok []), .selected .work, .opened, .item [1],
        .messageSent [1]] : List Event) := by simp
  exact (binds _ _ rfl unsent).1 [2] (by simp)

end TptProto.Grpc
