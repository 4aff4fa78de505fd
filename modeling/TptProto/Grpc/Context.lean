import Mathlib.Algebra.Group.Int.Defs
import TptProto.Foundation.Decimal
import TptProto.Foundation.Outcome
import TptProto.Grpc.Codec
import TptProto.Grpc.Metadata
import TptProto.Foundation.Trace

/-! The context of a call, built from the headers of its request. -/

namespace TptProto.Grpc

open TptProto.Core TptProto.Foundation

/-- A span of whole seconds (a `u64`) and nanoseconds below a second. -/
structure Duration where
  secs : Nat
  nanos : Nat
  deriving DecidableEq, Repr

namespace Duration

def fromSecs (n : Nat) : Duration := ⟨n, 0⟩

def fromMillis (n : Nat) : Duration := ⟨n / 1000, n % 1000 * 1000000⟩

def fromMicros (n : Nat) : Duration := ⟨n / 1000000, n % 1000000 * 1000⟩

def fromNanos (n : Nat) : Duration := ⟨n / 1000000000, n % 1000000000⟩

end Duration

/-- `u64::checked_mul`. -/
def checkedMul (a b : Nat) : Option Nat := if a * b < 2 ^ 64 then some (a * b) else none

/-- The value is visible ASCII, so its last byte is its last character. -/
def parseTimeout (value : String) : Except String Duration :=
  if (asBytes value).length < 2 then .error s!"invalid grpc-timeout `{value}`"
  else
    match Decimal.parseNat (2 ^ 64) (String.ofList value.toList.dropLast) with
    | none => .error s!"invalid grpc-timeout value `{value}`"
    | some n =>
      let overflows := s!"grpc-timeout `{value}` overflows"
      match value.toList.getLast? with
      | some 'H' => (checkedMul n 3600).elim (.error overflows) fun s => .ok (.fromSecs s)
      | some 'M' => (checkedMul n 60).elim (.error overflows) fun s => .ok (.fromSecs s)
      | some 'S' => .ok (.fromSecs n)
      | some 'm' => .ok (.fromMillis n)
      | some 'u' => .ok (.fromMicros n)
      | some 'n' => .ok (.fromNanos n)
      | some other => .error s!"unknown grpc-timeout unit `{other}`"
      | none => .error "unknown grpc-timeout unit ``"

/-- A point in time: seconds (an `i64`) and nanoseconds below a second. -/
structure SystemTime where
  secs : Int
  nanos : Nat
  deriving DecidableEq, Repr

/-- `SystemTime + Duration`, which panics when the sum cannot be represented. -/
def SystemTime.add (time : SystemTime) (span : Duration) : Option SystemTime :=
  let nanos := time.nanos + span.nanos
  let secs := time.secs + span.secs + (if nanos < 1000000000 then 0 else 1)
  if secs < 2 ^ 63 then some ⟨secs, if nanos < 1000000000 then nanos else nanos - 1000000000⟩
  else none

structure PeerCertificate where
  subjectCn : Option String
  sanDns : List String
  der : List UInt8
  deriving DecidableEq, Repr

structure PeerInfo where
  peerAddr : Option String
  userAgent : Option String
  authPrincipal : Option String
  peerCertificate : Option PeerCertificate
  deriving DecidableEq, Repr

/-- The cancellation token is its flag: a fresh token is not cancelled. -/
structure RpcContext where
  metadata : Metadata
  deadline : Option SystemTime
  cancelled : Bool
  peer : Option PeerInfo
  deriving DecidableEq, Repr

/-- What the loop over the request headers has gathered. -/
structure Gathered where
  metadataPairs : List (String × String) := []
  deadline : Option SystemTime := none
  requestEncoding : Compression := .identity
  userAgent : Option String := none

def skippedHeader (name : String) : Bool :=
  startsWith name ":" || name = "content-type" || name = "te"

/-- One header. Values that are not text are passed over. -/
def gather (now : SystemTime) (gathered : Gathered) (header : String × List UInt8) :
    Outcome Unit Gathered :=
  if skippedHeader header.1 then .ok gathered
  else match toStr header.2 with
    | none => .ok gathered
    | some v =>
      if header.1 = "grpc-timeout" then
        match parseTimeout v with
        | .error _ => .ok gathered
        | .ok d => match now.add d with
          | some deadline => .ok { gathered with deadline := some deadline }
          | none => .panic
      else if header.1 = "grpc-encoding" then
        .ok { gathered with requestEncoding := Compression.fromHeader v }
      else if header.1 = "user-agent" then .ok { gathered with userAgent := some v }
      else .ok { gathered with metadataPairs := gathered.metadataPairs ++ [(header.1, v)] }

/-- The context is built by `SystemTime::now()` being `now` throughout. No error is returned. -/
def buildContext (base64 : Base64) (now : SystemTime) (headers : HeaderMap) (peerAddr : String)
    (peerCertificate : Option PeerCertificate) (maxMetadataSize : Nat) :
    Outcome Unit (RpcContext × Compression) := do
  let gathered ← headers.foldlM (gather now) {}
  let metadata := unwrapOrDefault {}
    (Metadata.fromHeaders base64 gathered.metadataPairs maxMetadataSize)
  let peer : PeerInfo := ⟨some peerAddr, gathered.userAgent, none, peerCertificate⟩
  .ok (⟨metadata, gathered.deadline, false, some peer⟩, gathered.requestEncoding)

end TptProto.Grpc

/-! The cancellation token, with the steps of `cancel` and of `cancelled` interleaved. -/

namespace TptProto.Grpc.Cancellation

open TptProto.Foundation

/-- Where a call of `cancelled` stands. A `Notified` that exists knows whether it was notified. -/
inductive Caller where
  | idle
  | checked
  | created (notified : Bool)
  | parked (notified : Bool)
  | returned
  deriving DecidableEq, Repr

/-- Where a call of `cancel` stands. -/
inductive Canceller where
  | idle
  | flagged
  | done
  deriving DecidableEq, Repr

/-- `notify_waiters` reaches every `Notified` that has been created, parked or not. -/
def Caller.notified : Caller → Caller
  | .created _ => .created true
  | .parked _ => .parked true
  | caller => caller

/-- The state that all clones share, and the calls, each under a number of its own. -/
structure State where
  flag : Bool
  caller : Nat → Caller
  canceller : Nat → Canceller

namespace State

def start : State := { flag := false, caller := fun _ => .idle, canceller := fun _ => .idle }

def setCaller (s : State) (i : Nat) (phase : Caller) : State :=
  { s with caller := fun j => if j = i then phase else s.caller j }

def setCanceller (s : State) (k : Nat) (phase : Canceller) : State :=
  { s with canceller := fun j => if j = k then phase else s.canceller j }

end State

inductive Event where
  | check (i : Nat)
  | create (i : Nat)
  | park (i : Nat)
  | wake (i : Nat)
  | store (k : Nat)
  | notify (k : Nat)
  deriving DecidableEq, Repr

/-- One step of one call: the caller checks the flag, creates its `Notified` and awaits it; the
canceller stores the flag and then notifies. -/
inductive Step : State → Event → State → Prop where
  | check {s : State} {i : Nat} (here : s.caller i = .idle) :
      Step s (.check i) (s.setCaller i (if s.flag then .returned else .checked))
  | create {s : State} {i : Nat} (here : s.caller i = .checked) :
      Step s (.create i) (s.setCaller i (.created false))
  | park {s : State} {i : Nat} {notified : Bool} (here : s.caller i = .created notified) :
      Step s (.park i) (s.setCaller i (if notified then .returned else .parked false))
  | wake {s : State} {i : Nat} (here : s.caller i = .parked true) :
      Step s (.wake i) (s.setCaller i .returned)
  | store {s : State} {k : Nat} (here : s.canceller k = .idle) :
      Step s (.store k) { s.setCanceller k .flagged with flag := true }
  | notify {s : State} {k : Nat} (here : s.canceller k = .flagged) :
      Step s (.notify k)
        { s.setCanceller k .done with caller := fun i => (s.caller i).notified }

/-- No caller is parked without a notification once some `cancel` has completed. -/
def Awake (s : State) : Prop :=
  ∀ k i, s.canceller k = .done → s.caller i ≠ .parked false

/-- A `Notified` is created only while no `cancel` has completed. -/
def Timely (s : State) : Event → Prop
  | .create _ => ∀ k, s.canceller k ≠ .done
  | _ => True

/-- Nobody is parked, or about to be, without a notification that has already gone out. -/
def Alert (s : State) : Prop :=
  ∀ k i, s.canceller k = .done → s.caller i ≠ .created false ∧ s.caller i ≠ .parked false

section Steps

variable {s next : State} {event : Event}

private theorem caller_setCaller {i j : Nat} {phase other : Caller}
    (here : (s.setCaller i phase).caller j = other) : phase = other ∨ s.caller j = other := by
  unfold State.setCaller at here
  simp only at here
  split at here
  · exact .inl here
  · exact .inr here

/-- A caller that moves to a phase in which it needs no notification leaves the others as they
were. -/
private theorem alert_setCaller {i : Nat} {phase : Caller} (alert : Alert s)
    (calm : ∀ k, s.canceller k = .done → phase ≠ .created false ∧ phase ≠ .parked false) :
    Alert (s.setCaller i phase) := by
  intro k j done
  obtain ⟨apart, apart'⟩ := calm k done
  obtain ⟨fine, fine'⟩ := alert k j done
  constructor
  · intro here
    rcases caller_setCaller here with same | same
    · exact apart same
    · exact fine same
  · intro here
    rcases caller_setCaller here with same | same
    · exact apart' same
    · exact fine' same

theorem alert_step (alert : Alert s) (timely : Timely s event) (step : Step s event next) :
    Alert next := by
  cases step with
  | check here =>
    apply alert_setCaller alert
    intro k _
    split <;> exact ⟨nofun, nofun⟩
  | create here =>
    apply alert_setCaller alert
    intro k done
    exact (timely k done).elim
  | @park i notified here =>
    apply alert_setCaller alert
    intro k done
    cases notified with
    | true => exact ⟨nofun, nofun⟩
    | false => exact ((alert k i done).1 here).elim
  | wake here =>
    apply alert_setCaller alert
    intro k _
    exact ⟨nofun, nofun⟩
  | @store k here =>
    intro j i done
    apply alert j i
    simp only [State.setCanceller] at done
    split at done
    · cases done
    · exact done
  | notify here =>
    intro j i done
    simp only
    cases s.caller i <;> exact ⟨nofun, nofun⟩

/-- The calls decide nothing: an event has one outcome. -/
private theorem step_unique {other : State} (step : Step s event next)
    (again : Step s event other) : next = other := by
  cases step with
  | park here =>
    cases again with
    | park here' =>
      cases here.symm.trans here'
      rfl
  | _ =>
    cases again
    rfl

theorem Alert.awake (alert : Alert s) : Awake s := fun k i done => (alert k i done).2

end Steps

/-- In a run the notifications are created in time if and only if in every state reached, and after
any parking there, no caller misses a completed `cancel`. -/
theorem no_lost_wakeup_iff {events : List Event} {final : State}
    (run : Trace Step .start events final) :
    Throughout Step Timely .start events ↔
      ∀ before after s, events = before ++ after → Trace Step .start before s →
        Awake s ∧ ∀ i next, Step s (.park i) next → Awake next := by
  constructor
  · intro timely before after s same reached
    subst same
    have alert : Alert s :=
      reached.invariant timely.before nofun fun _ _ _ alert timely step =>
        alert_step alert timely step
    refine ⟨alert.awake, fun i next step => ?_⟩
    have always : Timely s (.park i) := trivial
    exact (alert_step alert always step).awake
  · intro awake before event after s same reached
    cases event with
    | create i =>
      intro k done
      subst same
      obtain ⟨middle, next, first, step, _⟩ := run.split
      have determined (s : State) (event : Event) (one other : State) (step : Step s event one)
          (again : Step s event other) : one = other := step_unique step again
      obtain rfl := first.unique determined reached
      have created := Trace.append_iff.mpr ⟨middle, first, .cons step (.nil next)⟩
      have split : before ++ .create i :: after = (before ++ [.create i]) ++ after := by simp
      cases step with
      | create here =>
        have here' : (middle.setCaller i (.created false)).caller i = .created false := if_pos rfl
        refine (awake _ _ _ split created).2 i _ (.park here') k i done ?_
        exact if_pos rfl
    | _ => trivial

/-- The caller looks at the flag just before it is stored, and creates its `Notified` just after
the waiters were notified. -/
theorem not_awake_late : ¬ ∀ events s, Trace Step .start events s → Awake s := by
  intro awake
  have run : Trace Step .start [.check 0, .store 0, .notify 0, .create 0, .park 0] _ :=
    .cons (.check rfl) (.cons (.store rfl) (.cons (.notify rfl)
      (.cons (.create rfl) (.cons (.park rfl) (.nil _)))))
  exact awake _ _ run 0 0 rfl rfl

/-- A caller that creates its `Notified` before the waiters are notified is not missed. -/
theorem no_lost_wakeup_early :
    ∃ final, Trace Step .start [.check 0, .create 0, .store 0, .notify 0, .park 0] final ∧
      (Throughout Step Timely .start [.check 0, .create 0, .store 0, .notify 0, .park 0] ↔
        ∀ before after s, [.check 0, .create 0, .store 0, .notify 0, .park 0] = before ++ after →
          Trace Step .start before s → Awake s ∧ ∀ i next, Step s (.park i) next → Awake next) := by
  have run : Trace Step .start [.check 0, .create 0, .store 0, .notify 0, .park 0] _ :=
    .cons (.check rfl) (.cons (.create rfl) (.cons (.store rfl)
      (.cons (.notify rfl) (.cons (.park rfl) (.nil _)))))
  exact ⟨_, run, no_lost_wakeup_iff run⟩

end TptProto.Grpc.Cancellation
