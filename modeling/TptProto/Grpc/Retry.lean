import TptProto.Grpc.Client
import TptProto.Grpc.Context

/-! The client's connection over the attempts of its unary calls. -/

namespace TptProto.Grpc

open TptProto.Core TptProto.Foundation

/-- `Duration * u32`, which panics when the seconds overflow. -/
def Duration.mul? (span : Duration) (n : Nat) : Option Duration :=
  let nanos := span.nanos * n
  let secs := span.secs * n + nanos / 1000000000
  if secs < 2 ^ 64 then some ⟨secs, nanos % 1000000000⟩ else none

/-- The retry policy with the pause between attempts. -/
structure PacedRetryPolicy extends RetryPolicy where
  backoff : Duration := .fromMillis 50

/-- A connection, told apart by its number, and whether requests on it still go through. -/
structure ClientConn where
  id : Nat
  alive : Bool
  deriving DecidableEq, Repr

/-- The connection that the client keeps, and how many it has made. -/
structure Connections where
  conn : Option ClientConn := none
  made : Nat := 0

/-- What the world answers to one attempt: which endpoints can be connected to, whether the
connection dies before the response has come, with which text, and else the response. -/
structure World where
  endpoints : List (Except Status Unit)
  dies : Option String
  response : Except Status (List UInt8 × Metadata)

/-- One attempt: the connection that was kept when it began, the one it was made on, if it got one,
whether that was dead, and how the attempt ended. -/
structure Attempt where
  kept : Option ClientConn
  conn : Option Nat
  dead : Bool
  result : Except Status (List UInt8 × Metadata)

namespace Client

/-- The first endpoint that can be connected to, or the last failure. -/
def connectFirst (lastErr : Status) : List (Except Status Unit) → Except Status Unit
  | [] => .error lastErr
  | .ok () :: _ => .ok ()
  | .error e :: rest => connectFirst e rest

/-- `Client::connection`: the kept connection is used again, whatever has become of it. -/
def connection (self : Connections) (endpoints : List (Except Status Unit)) :
    Except Status (ClientConn × Connections) :=
  match self.conn with
  | some conn => .ok (conn, self)
  | none =>
    match connectFirst (.new .unavailable "no endpoints") endpoints with
    | .ok () => .ok (⟨self.made, true⟩, ⟨some ⟨self.made, true⟩, self.made + 1⟩)
    | .error e => .error e

/-- `Client::unary_once`. A request on a dead connection fails with `UNAVAILABLE`. -/
def unaryAttempt (self : Connections) (world : World) : Attempt × Connections :=
  match connection self world.endpoints with
  | .error e => (⟨self.conn, none, false, .error e⟩, self)
  | .ok (conn, next) =>
    if conn.alive && world.dies.isNone then
      (⟨self.conn, some conn.id, false, world.response⟩, next)
    else
      (⟨self.conn, some conn.id, true,
        .error (.new .unavailable (world.dies.getD "connection not ready"))⟩,
        { next with conn := some { conn with alive := false } })

end Client

/-- What one call of `unary` has done. -/
structure UnaryRun where
  attempts : List Attempt
  result : Outcome Status (List UInt8 × Metadata)
  conns : Connections

namespace Client

variable (policy : PacedRetryPolicy)

/-- The loop of `Client::unary`: `left` is `max_retries - attempt`. -/
def unaryLoop (worlds : Nat → World) : Nat → Nat → Connections → UnaryRun
  | left, n, self =>
    let (made, self) := unaryAttempt self (worlds n)
    match made.result with
    | .ok v => ⟨[made], .ok v, self⟩
    | .error e =>
      if policy.retryable.contains e.code then
        match left with
        | 0 => ⟨[made], .err e, self⟩
        | left + 1 =>
          match policy.backoff.mul? (n + 1) with
          | none => ⟨[made], .panic, self⟩
          | some _ =>
            let run := unaryLoop worlds left (n + 1) self
            { run with attempts := made :: run.attempts }
      else ⟨[made], .err e, self⟩

/-- `Client::unary`. -/
def unaryCall (self : Connections) (worlds : Nat → World) : UnaryRun :=
  unaryLoop policy worlds policy.maxRetries 0 self

/-- Calls one after the other, over the connection that the client keeps. -/
def unaryCalls : Connections → List (Nat → World) → List UnaryRun
  | _, [] => []
  | self, worlds :: rest =>
    let run := unaryCall policy self worlds
    run :: unaryCalls run.conns rest

end Client

section Attempts

variable {self next : Connections} {world : World} {made : Attempt}

/-- Attempts one after the other. -/
inductive Attempts : Connections → List Attempt → Connections → Prop where
  | none {self : Connections} : Attempts self [] self
  | more {self next final : Connections} {world : World} {made : Attempt} {later : List Attempt}
      (step : Client.unaryAttempt self world = (made, next)) (rest : Attempts next later final) :
      Attempts self (made :: later) final

theorem Attempts.append {final : Connections} {first second : List Attempt}
    (front : Attempts self first next) (back : Attempts next second final) :
    Attempts self (first ++ second) final := by
  induction front with
  | none => exact back
  | more step _ inductionHypothesis => exact .more step (inductionHypothesis back)

/-- The connections found dead in the past are the one that is kept, if that is dead. -/
structure Remembers (past : List Attempt) (conns : Connections) : Prop where
  found : ∀ id, conns.conn = some ⟨id, false⟩ → ∃ made ∈ past, made.dead = true ∧ made.conn = some id
  kept : ∀ made ∈ past, made.dead = true →
    ∃ id, made.conn = some id ∧ conns.conn = some ⟨id, false⟩

private theorem connection_error {endpoints : List (Except Status Unit)} {e : Status}
    (failed : Client.connection self endpoints = .error e) : self.conn = none := by
  unfold Client.connection at failed
  split at failed
  · cases failed
  · assumption

private theorem connection_ok {endpoints : List (Except Status Unit)} {conn : ClientConn}
    (connected : Client.connection self endpoints = .ok (conn, next)) :
    (self.conn = none ∧ conn.alive = true ∨ self.conn = some conn) ∧ next.conn = some conn := by
  unfold Client.connection at connected
  split at connected
  · rename_i kept
    cases connected
    exact ⟨.inr kept, kept⟩
  · rename_i none
    split at connected
    · cases connected
      exact ⟨.inl ⟨none, rfl⟩, rfl⟩
    · cases connected

/-- An attempt is made on the connection that is kept, or on a new one, which is kept then; it is
dead if the kept one was. -/
theorem unaryAttempt_cases (step : Client.unaryAttempt self world = (made, next)) :
    made.kept = self.conn ∧
      ((self.conn = none ∧ made.dead = false ∧ next = self) ∨
        ∃ conn, (self.conn = none ∧ conn.alive = true ∨ self.conn = some conn) ∧
          made.conn = some conn.id ∧ next.conn = some ⟨conn.id, !made.dead⟩ ∧
          (conn.alive = false → made.dead = true)) := by
  unfold Client.unaryAttempt at step
  split at step
  · rename_i failed
    cases step
    exact ⟨rfl, .inl ⟨connection_error failed, rfl, rfl⟩⟩
  · rename_i conn next' connected
    obtain ⟨source, kept⟩ := connection_ok connected
    split at step
    · rename_i live
      rw [Bool.and_eq_true] at live
      cases step
      refine ⟨rfl, .inr ⟨conn, source, rfl, ?_, fun dead => ?_⟩⟩
      · rw [kept]
        obtain ⟨id, alive⟩ := conn
        cases live.1
        rfl
      · rw [live.1] at dead
        cases dead
    · cases step
      exact ⟨rfl, .inr ⟨conn, source, rfl, rfl, fun _ => rfl⟩⟩

variable {past : List Attempt}

private theorem Remembers.step (remembers : Remembers past self)
    (step : Client.unaryAttempt self world = (made, next)) : Remembers (past ++ [made]) next := by
  obtain ⟨_, ⟨none, live, rfl⟩ | ⟨conn, source, on, kept, dead⟩⟩ := unaryAttempt_cases step
  · constructor
    · intro id found
      rw [none] at found
      cases found
    · intro other member gone
      rcases List.mem_append.mp member with before | last
      · exact remembers.kept other before gone
      · rw [List.mem_singleton.mp last, live] at gone
        cases gone
  · constructor
    · intro id found
      rw [kept, Option.some.injEq, ClientConn.mk.injEq, Bool.not_eq_false'] at found
      exact ⟨made, by simp, found.2, by rw [on, found.1]⟩
    · intro other member gone
      rcases List.mem_append.mp member with before | last
      · obtain ⟨id, same, was⟩ := remembers.kept other before gone
        rcases source with ⟨none, _⟩ | same'
        · rw [none] at was
          cases was
        · rw [same'] at was
          cases was
          exact ⟨id, same, by rw [kept, dead rfl]; rfl⟩
      · rw [List.mem_singleton.mp last] at gone ⊢
        exact ⟨conn.id, on, by rw [kept, gone]; rfl⟩

/-- An attempt is made on no connection found dead before exactly if the kept one is not dead. -/
private theorem Remembers.fresh_iff (remembers : Remembers past self)
    (step : Client.unaryAttempt self world = (made, next)) :
    (∀ before ∈ past, before.dead = true → made.conn ≠ before.conn) ↔
      ∀ conn ∈ made.kept, conn.alive = true := by
  obtain ⟨begun, cases'⟩ := unaryAttempt_cases step
  rw [begun]
  constructor
  · intro fresh conn kept
    apply Classical.byContradiction
    intro gone
    rw [Bool.not_eq_true] at gone
    obtain ⟨id, alive⟩ := conn
    cases gone
    obtain ⟨before, member, dead, on⟩ := remembers.found id kept
    apply fresh before member dead
    rcases cases' with ⟨none, _⟩ | ⟨conn, source, on', _⟩
    · rw [Option.mem_def, none] at kept
      cases kept
    · rcases source with ⟨none, _⟩ | same
      · rw [Option.mem_def, none] at kept
        cases kept
      · rw [Option.mem_def, same] at kept
        cases kept
        rw [on, on']
  · intro alive before member dead _
    obtain ⟨id, _, kept⟩ := remembers.kept before member dead
    cases alive _ kept

/-- No attempt behind one on a dead connection is made on that connection. -/
def Reconnects (attempts : List Attempt) : Prop :=
  attempts.Pairwise fun before later => before.dead = true → later.conn ≠ before.conn

/-- Every attempt begins with no connection kept, or with one that is not dead. -/
def BeginsAlive (attempts : List Attempt) : Prop :=
  ∀ made ∈ attempts, ∀ conn ∈ made.kept, conn.alive = true

private theorem reconnects_iff_of_remembers {final : Connections} {attempts : List Attempt}
    (run : Attempts self attempts final) (remembers : Remembers past self) :
    ((∀ before ∈ past, ∀ made ∈ attempts, before.dead = true → made.conn ≠ before.conn) ∧
        Reconnects attempts) ↔ BeginsAlive attempts := by
  induction run generalizing past with
  | none => simp [Reconnects, BeginsAlive]
  | @more self next final world made later step rest inductionHypothesis =>
    have fresh := remembers.fresh_iff step
    have behind := inductionHypothesis (remembers.step step)
    simp only [Reconnects, BeginsAlive, List.pairwise_cons, List.forall_mem_cons] at behind ⊢
    rw [← fresh, ← behind]
    constructor
    · rintro ⟨before, own, later⟩
      refine ⟨fun b member => (before b member).1, fun b member => ?_, later⟩
      rcases List.mem_append.mp member with earlier | last
      · exact (before b earlier).2
      · rw [List.mem_singleton.mp last]
        exact own
    · rintro ⟨first, all, later⟩
      refine ⟨fun b member => ⟨first b member, all b (by simp [member])⟩, ?_, later⟩
      exact all made (by simp)

theorem reconnects_iff {final : Connections} {attempts : List Attempt}
    (run : Attempts {} attempts final) : Reconnects attempts ↔ BeginsAlive attempts := by
  have remembers : Remembers [] {} := ⟨nofun, nofun⟩
  have whole := reconnects_iff_of_remembers run remembers
  simpa using whole

end Attempts

section Calls

variable (policy : PacedRetryPolicy)

/-- The attempt failed with a code that may be retried. -/
def Attempt.Retryable (made : Attempt) : Prop :=
  ∃ e, made.result = .error e ∧ policy.retryable.contains e.code = true

/-- The attempt that would come after so many more. -/
def attemptAfter (worlds : Nat → World) : Nat → Connections → Nat → Attempt × Connections
  | n, self, 0 => Client.unaryAttempt self (worlds n)
  | n, self, k + 1 => attemptAfter worlds (n + 1) (Client.unaryAttempt self (worlds n)).2 k

/-- The pause before each attempt that the call comes to can be represented. -/
def CallPauses (self : Connections) (worlds : Nat → World) : Prop :=
  ∀ k < policy.maxRetries, (∀ j ≤ k, (attemptAfter worlds 0 self j).1.Retryable policy) →
    (policy.backoff.mul? (k + 1)).isSome = true

variable {policy} {worlds : Nat → World} {self next : Connections} {made : Attempt} {left n : Nat}

/-- The three ways in which an attempt goes on: an end, a panic, or one more. -/
private theorem unaryLoop_cases (step : Client.unaryAttempt self (worlds n) = (made, next)) :
    ((¬ made.Retryable policy ∨ left = 0) ∧
        ∃ result, result ≠ .panic ∧
          Client.unaryLoop policy worlds left n self = ⟨[made], result, next⟩) ∨
      ∃ fewer, left = fewer + 1 ∧ made.Retryable policy ∧
        ((policy.backoff.mul? (n + 1) = none ∧
            Client.unaryLoop policy worlds left n self = ⟨[made], .panic, next⟩) ∨
          (policy.backoff.mul? (n + 1)).isSome = true ∧
            Client.unaryLoop policy worlds left n self =
              { Client.unaryLoop policy worlds fewer (n + 1) next with
                attempts := made :: (Client.unaryLoop policy worlds fewer (n + 1) next).attempts }) := by
  cases ended : made.result with
  | ok v =>
    refine .inl ⟨.inl ?_, .ok v, nofun, ?_⟩
    · rintro ⟨e, failed, _⟩
      rw [ended] at failed
      cases failed
    · unfold Client.unaryLoop
      simp only [step, ended]
  | error e =>
    cases listed : policy.retryable.contains e.code with
    | false =>
      refine .inl ⟨.inl ?_, .err e, nofun, ?_⟩
      · rintro ⟨e', failed, contained⟩
        rw [ended] at failed
        cases failed
        rw [listed] at contained
        cases contained
      · unfold Client.unaryLoop
        simp only [step, ended, listed, Bool.false_eq_true, if_false]
    | true =>
      cases left with
      | zero =>
        refine .inl ⟨.inr rfl, .err e, nofun, ?_⟩
        unfold Client.unaryLoop
        simp only [step, ended, listed, if_true]
      | succ fewer =>
        refine .inr ⟨fewer, rfl, ⟨e, ended, listed⟩, ?_⟩
        cases pause : policy.backoff.mul? (n + 1) with
        | none =>
          refine .inl ⟨rfl, ?_⟩
          rw [Client.unaryLoop]
          simp only [step, ended, listed, if_true, pause]
        | some span =>
          refine .inr ⟨rfl, ?_⟩
          rw [Client.unaryLoop]
          simp only [step, ended, listed, if_true, pause]

/-- What a loop that may go on so often, and has made so many attempts, does from here. -/
structure LoopRun (policy : PacedRetryPolicy) (worlds : Nat → World) (left n : Nat)
    (conns : Connections) (run : UnaryRun) : Prop where
  attempts : Attempts conns run.attempts run.conns
  nonempty : run.attempts ≠ []
  bounded : run.attempts.length ≤ left + 1
  retried : ∀ made ∈ run.attempts.dropLast, made.Retryable policy
  paused : run.result ≠ .panic ↔
    ∀ k < left, (∀ j ≤ k, (attemptAfter worlds n conns j).1.Retryable policy) →
      (policy.backoff.mul? (n + k + 1)).isSome = true

private theorem LoopRun.last {result : Outcome Status (List UInt8 × Metadata)}
    (step : Client.unaryAttempt self (worlds n) = (made, next)) (fine : result ≠ .panic)
    (stops : ¬ made.Retryable policy ∨ left = 0) :
    LoopRun policy worlds left n self ⟨[made], result, next⟩ := by
  refine ⟨.more step .none, List.cons_ne_nil _ _, Nat.succ_le_succ (Nat.zero_le _), nofun, ?_⟩
  refine iff_of_true fine fun k less retryable => ?_
  have first := retryable 0 (Nat.zero_le k)
  rw [attemptAfter, step] at first
  rcases stops with stops | rfl
  · exact absurd first stops
  · omega

private theorem LoopRun.panics (step : Client.unaryAttempt self (worlds n) = (made, next))
    (retryable : made.Retryable policy) (pause : policy.backoff.mul? (n + 1) = none) :
    LoopRun policy worlds (left + 1) n self ⟨[made], .panic, next⟩ := by
  refine ⟨.more step .none, List.cons_ne_nil _ _, Nat.succ_le_succ (Nat.zero_le _), nofun, ?_⟩
  refine iff_of_false (fun fine => fine rfl) fun pauses => ?_
  have first := pauses 0 (Nat.succ_pos left) fun j least => by
    rw [Nat.le_zero.mp least, attemptAfter, step]
    exact retryable
  rw [Nat.add_zero, pause] at first
  cases first

private theorem LoopRun.more {run : UnaryRun}
    (step : Client.unaryAttempt self (worlds n) = (made, next)) (retryable : made.Retryable policy)
    (pause : (policy.backoff.mul? (n + 1)).isSome = true)
    (later : LoopRun policy worlds left (n + 1) next run) :
    LoopRun policy worlds (left + 1) n self { run with attempts := made :: run.attempts } := by
  refine ⟨.more step later.attempts, List.cons_ne_nil _ _, Nat.succ_le_succ later.bounded, ?_, ?_⟩
  · intro other member
    rw [List.dropLast_cons_of_ne_nil later.nonempty] at member
    rcases List.mem_cons.mp member with rfl | behind
    · exact retryable
    · exact later.retried other behind
  · rw [later.paused]
    constructor
    · intro pauses k less all
      cases k with
      | zero => exact pause
      | succ k =>
        have same : n + (k + 1) + 1 = n + 1 + k + 1 := by omega
        rw [same]
        refine pauses k (Nat.lt_of_succ_lt_succ less) fun j least => ?_
        have after := all (j + 1) (Nat.succ_le_succ least)
        rwa [attemptAfter, step] at after
    · intro pauses k less all
      have same : n + 1 + k + 1 = n + (k + 1) + 1 := by omega
      rw [same]
      refine pauses (k + 1) (Nat.succ_lt_succ less) fun j least => ?_
      cases j with
      | zero =>
        rw [attemptAfter, step]
        exact retryable
      | succ j =>
        rw [attemptAfter, step]
        exact all j (Nat.le_of_succ_le_succ least)

private theorem unaryLoop_run (left n : Nat) (self : Connections) :
    LoopRun policy worlds left n self (Client.unaryLoop policy worlds left n self) := by
  induction left generalizing n self with
  | zero =>
    cases step : Client.unaryAttempt self (worlds n) with
    | mk made next =>
      rcases @unaryLoop_cases policy worlds self next made 0 n step with
        ⟨stops, result, fine, same⟩ | ⟨fewer, more, _⟩
      · rw [same]
        exact .last step fine stops
      · cases more
  | succ left inductionHypothesis =>
    cases step : Client.unaryAttempt self (worlds n) with
    | mk made next =>
      rcases @unaryLoop_cases policy worlds self next made (left + 1) n step with
        ⟨stops, result, fine, same⟩ | ⟨fewer, more, retryable, ⟨pause, same⟩ | ⟨pause, same⟩⟩
      · rw [same]
        exact .last step fine stops
      · rw [same]
        exact .panics step retryable pause
      · cases more
        rw [same]
        exact .more step retryable pause (inductionHypothesis (n + 1) next)

/-- The pauses of all calls can be represented. -/
def PausesFit (policy : PacedRetryPolicy) : Connections → List (Nat → World) → Prop
  | _, [] => True
  | self, worlds :: rest =>
    CallPauses policy self worlds ∧ PausesFit policy (Client.unaryCall policy self worlds).conns rest

/-- All attempts of some calls. -/
def allAttempts (runs : List UnaryRun) : List Attempt := runs.flatMap UnaryRun.attempts

/-- A client recovers over these calls: few attempts, none without need, no panic, and none on a
connection that has been found dead. -/
structure Recovers (policy : PacedRetryPolicy) (runs : List UnaryRun) : Prop where
  bounded : ∀ run ∈ runs, run.attempts.length ≤ policy.maxRetries + 1
  retried : ∀ run ∈ runs, ∀ made ∈ run.attempts.dropLast, made.Retryable policy
  paused : ∀ run ∈ runs, run.result ≠ .panic
  reconnects : Reconnects (allAttempts runs)

private theorem unaryCall_paused (self : Connections) (worlds : Nat → World) :
    (Client.unaryCall policy self worlds).result ≠ .panic ↔ CallPauses policy self worlds := by
  have run := (@unaryLoop_run policy worlds policy.maxRetries 0 self).paused
  simp only [Nat.zero_add] at run
  exact run

private theorem unaryCalls_attempts (self : Connections) (calls : List (Nat → World)) :
    ∃ final, Attempts self (allAttempts (Client.unaryCalls policy self calls)) final := by
  induction calls generalizing self with
  | nil => exact ⟨self, .none⟩
  | cons worlds rest inductionHypothesis =>
    obtain ⟨final, later⟩ := inductionHypothesis (Client.unaryCall policy self worlds).conns
    exact ⟨final, (unaryLoop_run policy.maxRetries 0 self).attempts.append later⟩

private theorem unaryCalls_each (self : Connections) (calls : List (Nat → World)) :
    ((∀ run ∈ Client.unaryCalls policy self calls,
        run.attempts.length ≤ policy.maxRetries + 1 ∧
          ∀ made ∈ run.attempts.dropLast, made.Retryable policy) ∧
      ((∀ run ∈ Client.unaryCalls policy self calls, run.result ≠ .panic) ↔
        PausesFit policy self calls)) := by
  induction calls generalizing self with
  | nil => exact ⟨nofun, iff_of_true nofun trivial⟩
  | cons worlds rest inductionHypothesis =>
    obtain ⟨each, paused⟩ := inductionHypothesis (Client.unaryCall policy self worlds).conns
    have run := @unaryLoop_run policy worlds policy.maxRetries 0 self
    rw [Client.unaryCalls]
    constructor
    · exact List.forall_mem_cons.mpr ⟨⟨run.bounded, run.retried⟩, each⟩
    · rw [List.forall_mem_cons, paused, unaryCall_paused, PausesFit]

/-- Calls of a new client recover exactly if every pause can be represented, and no attempt begins
with a dead connection kept. -/
theorem recovers_iff (policy : PacedRetryPolicy) (calls : List (Nat → World)) :
    Recovers policy (Client.unaryCalls policy {} calls) ↔
      PausesFit policy {} calls ∧ BeginsAlive (allAttempts (Client.unaryCalls policy {} calls)) := by
  obtain ⟨final, attempts⟩ := @unaryCalls_attempts policy {} calls
  obtain ⟨each, paused⟩ := @unaryCalls_each policy {} calls
  rw [← reconnects_iff attempts, ← paused]
  constructor
  · intro recovers
    exact ⟨recovers.paused, recovers.reconnects⟩
  · rintro ⟨calm, reconnects⟩
    exact ⟨fun run member => (each run member).1, fun run member => (each run member).2, calm, reconnects⟩

/-- The connection of the first attempt dies; the server is there for the second. -/
def diesOnce : Nat → World
  | 0 => ⟨[.ok ()], some "connection closed", .error (.new .unknown "")⟩
  | _ => ⟨[.ok ()], none, .ok ([], {})⟩

/-- The retry is made on the dead connection all the same. -/
theorem not_recovers : ¬ Recovers { maxRetries := 1 }
    (Client.unaryCalls { maxRetries := 1 } {} [diesOnce]) := by
  intro recovers
  cases recovers.reconnects with
  | cons first _ => exact first _ (.head _) rfl rfl

end Calls

end TptProto.Grpc
