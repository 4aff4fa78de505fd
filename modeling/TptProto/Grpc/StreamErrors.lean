import TptProto.Grpc.PollBody

/-! Whether an error ends the two readers of HTTP/2 bodies. -/

namespace TptProto.Grpc

open TptProto.Core TptProto.Foundation

section Polls

variable {σ : Type} (poll : σ → Polled × σ)

/-- The state after so many polls. -/
def afterPolls : Nat → σ → σ
  | 0, s => s
  | n + 1, s => afterPolls n (poll s).2

/-- Every poll from now on yields the end of the stream. -/
def Ended (s : σ) : Prop := ∀ n, (poll (afterPolls poll n s)).1 = .ready none

/-- Once an error has been yielded, every later poll yields the end of the stream. -/
def ErrorsTerminal (s : σ) : Prop :=
  ∀ n error, (poll (afterPolls poll n s)).1 = .ready (some (.error error)) →
    Ended poll (afterPolls poll (n + 1) s)

variable {poll} {s : σ}

theorem afterPolls_succ (n : Nat) (s : σ) :
    afterPolls poll (n + 1) s = (poll (afterPolls poll n s)).2 := by
  induction n generalizing s with
  | zero => rfl
  | succ n inductionHypothesis => exact inductionHypothesis (poll s).2

theorem ended_step : Ended poll s ↔ (poll s).1 = .ready none ∧ Ended poll (poll s).2 := by
  constructor
  · intro ended
    exact ⟨ended 0, fun n => ended (n + 1)⟩
  · rintro ⟨now, later⟩ n
    cases n with
    | zero => exact now
    | succ n => exact later n

/-- A state that yields the end and stays as it is has ended. -/
theorem ended_of_fixed (fixed : poll s = (.ready none, s)) : Ended poll s := by
  intro n
  have still : afterPolls poll n s = s := by
    induction n with
    | zero => rfl
    | succ n inductionHypothesis => rw [afterPolls_succ, inductionHypothesis, fixed]
  rw [still, fixed]

theorem errorsTerminal_step :
    ErrorsTerminal poll s ↔
      (∀ error, (poll s).1 = .ready (some (.error error)) → Ended poll (poll s).2) ∧
        ErrorsTerminal poll (poll s).2 := by
  constructor
  · intro terminal
    refine ⟨fun error failed => ?_, fun n error failed => ?_⟩
    · exact terminal 0 error failed
    · exact terminal (n + 1) error failed
  · rintro ⟨now, later⟩ n error failed
    cases n with
    | zero => exact now error failed
    | succ n => exact later n error failed

theorem Ended.errorsTerminal (ended : Ended poll s) : ErrorsTerminal poll s := by
  intro n error failed
  rw [ended n] at failed
  cases failed

theorem errorsTerminal_of_error {error : Status} {next : σ}
    (failed : poll s = (.ready (some (.error error)), next)) :
    ErrorsTerminal poll s ↔ Ended poll next := by
  rw [errorsTerminal_step, failed]
  constructor
  · intro terminal
    exact terminal.1 error rfl
  · intro ended
    exact ⟨fun _ _ => ended, ended.errorsTerminal⟩

theorem errorsTerminal_of_other {polled : Polled} {next : σ} (stepped : poll s = (polled, next))
    (other : ∀ error, polled ≠ .ready (some (.error error))) :
    ErrorsTerminal poll s ↔ ErrorsTerminal poll next := by
  rw [errorsTerminal_step, stepped]
  constructor
  · exact fun terminal => terminal.2
  · intro terminal
    exact ⟨fun error failed => absurd failed (other error), terminal⟩

/-- Two states with the same next poll fare alike. -/
theorem errorsTerminal_congr {t : σ} (same : poll s = poll t) :
    ErrorsTerminal poll s ↔ ErrorsTerminal poll t := by
  rw [errorsTerminal_step, @errorsTerminal_step _ _ t, same]

theorem ended_congr {t : σ} (same : poll s = poll t) : Ended poll s ↔ Ended poll t := by
  rw [ended_step, @ended_step _ _ t, same]

end Polls

section Body

variable (codec : GzipCodec) (wording : Wording) (encoding : Compression) (max : Nat)

/-- Nothing is left but the end. -/
def Nothing (body : List DataAnswer) : Prop := ∀ answer ∈ body, answer = .chunk []

/-- A body, behind these bytes, that is read as messages up to the end, or up to one failure
with nothing behind it: a whole frame that is not decoded, or a failure between two frames. -/
inductive FailsLast (quiet : Prop) : List UInt8 → List DataAnswer → Prop where
  | ended : FailsLast quiet [] []
  | message {buf raw rest : List UInt8} {body : List DataAnswer}
      (taken : takeFrame codec wording encoding max buf = some (.ok raw, rest))
      (later : FailsLast quiet rest body) : FailsLast quiet buf body
  | refused {buf : List UInt8} {error : Status} {body : List DataAnswer}
      (taken : takeFrame codec wording encoding max buf = some (.error error, []))
      (nothing : Nothing body) (end' : quiet) : FailsLast quiet buf body
  | chunk {buf bytes : List UInt8} {body : List DataAnswer}
      (more : takeFrame codec wording encoding max buf = none)
      (later : FailsLast quiet (buf ++ bytes) body) : FailsLast quiet buf (.chunk bytes :: body)
  | failed {error : String} {body : List DataAnswer} (nothing : Nothing body) (end' : quiet) :
      FailsLast quiet [] (.failed error :: body)
  | pending {buf : List UInt8} {body : List DataAnswer}
      (more : takeFrame codec wording encoding max buf = none)
      (later : FailsLast quiet buf body) : FailsLast quiet buf (.pending :: body)

end Body

section Reader

variable (codec : GzipCodec) {ρ : Type} {close : ρ → List UInt8 → Polled × ρ}
variable {wording : Wording} {encoding : Compression} {max : Nat}

/-- Behind the last frame a reader fails over a part of one, and answers finally otherwise. -/
structure Closes (close : ρ → List UInt8 → Polled × ρ) : Prop where
  leftover : ∀ r buf, buf ≠ [] → ∃ error, close r buf = (.ready (some (.error error)), r)
  final : ∀ r, close (close r []).2 [] = (.ready none, (close r []).2)

variable {r : ρ} {buf rest : List UInt8} {body : List DataAnswer} {eof : Bool}

theorem poll_frame {item : Except Status (List UInt8)}
    (taken : takeFrame codec wording encoding max buf = some (item, rest)) :
    pollWith codec close wording encoding max ⟨⟨buf, eof, body⟩, r⟩ =
      (.ready (some item), ⟨⟨rest, eof, body⟩, r⟩) := by
  unfold pollWith pollBuffered
  rw [taken]

theorem poll_chunk {bytes : List UInt8}
    (more : takeFrame codec wording encoding max buf = none) :
    pollWith codec close wording encoding max ⟨⟨buf, false, .chunk bytes :: body⟩, r⟩ =
      pollWith codec close wording encoding max ⟨⟨buf ++ bytes, false, body⟩, r⟩ := by
  unfold pollWith
  rw [pollBuffered, more]
  rfl

theorem poll_failed {error : String}
    (more : takeFrame codec wording encoding max buf = none) :
    pollWith codec close wording encoding max ⟨⟨buf, false, .failed error :: body⟩, r⟩ =
      (.ready (some (.error (.new .internal s!"h2 body error: {error}"))),
        ⟨⟨buf, false, body⟩, r⟩) := by
  unfold pollWith
  rw [pollBuffered, more]
  rfl

theorem poll_pending (more : takeFrame codec wording encoding max buf = none) :
    pollWith codec close wording encoding max ⟨⟨buf, false, .pending :: body⟩, r⟩ =
      (.pending, ⟨⟨buf, false, body⟩, r⟩) := by
  unfold pollWith
  rw [pollBuffered, more]
  rfl

theorem poll_end (more : takeFrame codec wording encoding max buf = none) :
    pollWith codec close wording encoding max ⟨⟨buf, eof, []⟩, r⟩ =
      ((close r buf).1, ⟨⟨buf, true, []⟩, (close r buf).2⟩) := by
  unfold pollWith
  rw [pollBuffered, more]
  cases eof with
  | false => rfl
  | true => rfl

theorem takeFrame_nil : takeFrame codec wording encoding max [] = none := rfl

/-- Behind the end the reader stays as it is. -/
private theorem ended_behind (closes : Closes close) (r : ρ) :
    Ended (pollWith codec close wording encoding max) ⟨⟨[], true, []⟩, (close r []).2⟩ := by
  apply ended_of_fixed
  rw [poll_end codec (takeFrame_nil codec), closes.final r]

private theorem ended_iff (closes : Closes close) :
    Ended (pollWith codec close wording encoding max) ⟨⟨buf, false, body⟩, r⟩ ↔
      buf = [] ∧ Nothing body ∧ (close r []).1 = .ready none := by
  induction body generalizing buf with
  | nil =>
    cases taken : takeFrame codec wording encoding max buf with
    | some found =>
      rw [ended_step, poll_frame codec taken]
      constructor
      · rintro ⟨now, _⟩
        cases now
      · rintro ⟨rfl, _⟩
        cases taken
    | none =>
      rw [ended_step, poll_end codec taken]
      constructor
      · rintro ⟨now, _⟩
        by_cases empty : buf = []
        · subst empty
          exact ⟨rfl, nofun, now⟩
        · obtain ⟨error, failed⟩ := closes.leftover r buf empty
          rw [failed] at now
          cases now
      · rintro ⟨rfl, _, now⟩
        exact ⟨now, ended_behind codec closes r⟩
  | cons answer body inductionHypothesis =>
    cases taken : takeFrame codec wording encoding max buf with
    | some found =>
      rw [ended_step, poll_frame codec taken]
      constructor
      · rintro ⟨now, _⟩
        cases now
      · rintro ⟨rfl, _⟩
        cases taken
    | none =>
      cases answer with
      | chunk bytes =>
        rw [ended_congr (poll_chunk codec taken), inductionHypothesis, Nothing, Nothing,
          List.forall_mem_cons, List.append_eq_nil_iff, DataAnswer.chunk.injEq]
        constructor
        · rintro ⟨⟨empty, nothing⟩, later, now⟩
          exact ⟨empty, ⟨nothing, later⟩, now⟩
        · rintro ⟨empty, ⟨nothing, later⟩, now⟩
          exact ⟨⟨empty, nothing⟩, later, now⟩
      | failed error =>
        rw [ended_step, poll_failed codec taken]
        constructor
        · rintro ⟨now, _⟩
          cases now
        · rintro ⟨_, nothing, _⟩
          cases nothing _ List.mem_cons_self
      | pending =>
        rw [ended_step, poll_pending codec taken]
        constructor
        · rintro ⟨now, _⟩
          cases now
        · rintro ⟨_, nothing, _⟩
          cases nothing _ List.mem_cons_self

private theorem failsLast_iff {quiet : Prop} :
    FailsLast codec wording encoding max quiet buf body ↔
      match takeFrame codec wording encoding max buf with
      | some (.ok _, rest) => FailsLast codec wording encoding max quiet rest body
      | some (.error _, rest) => rest = [] ∧ Nothing body ∧ quiet
      | none =>
        match body with
        | [] => buf = []
        | .chunk bytes :: more => FailsLast codec wording encoding max quiet (buf ++ bytes) more
        | .failed _ :: more => buf = [] ∧ Nothing more ∧ quiet
        | .pending :: more => FailsLast codec wording encoding max quiet buf more := by
  constructor
  · intro fails
    cases fails with
    | ended => rfl
    | message taken later =>
      rw [taken]
      exact later
    | refused taken nothing quiet =>
      rw [taken]
      exact ⟨rfl, nothing, quiet⟩
    | chunk more later =>
      rw [more]
      exact later
    | failed nothing quiet => exact ⟨rfl, nothing, quiet⟩
    | pending more later =>
      rw [more]
      exact later
  · intro fails
    split at fails
    · rename_i taken
      exact .message taken fails
    · rename_i taken
      obtain ⟨rfl, nothing, end'⟩ := fails
      exact .refused taken nothing end'
    · rename_i more
      split at fails
      · subst fails
        exact .ended
      · exact .chunk more fails
      · obtain ⟨rfl, nothing, end'⟩ := fails
        exact .failed nothing end'
      · exact .pending more fails

/-- The frames that are whole are taken off first. -/
private theorem reader_iff_of_blocked (closes : Closes close)
    (blocked : ∀ buf, takeFrame codec wording encoding max buf = none →
      (ErrorsTerminal (pollWith codec close wording encoding max) ⟨⟨buf, false, body⟩, r⟩ ↔
        FailsLast codec wording encoding max ((close r []).1 = .ready none) buf body)) :
    ErrorsTerminal (pollWith codec close wording encoding max) ⟨⟨buf, false, body⟩, r⟩ ↔
      FailsLast codec wording encoding max ((close r []).1 = .ready none) buf body := by
  induction length : buf.length using Nat.strongRecOn generalizing buf with
  | ind size inductionHypothesis =>
    cases taken : takeFrame codec wording encoding max buf with
    | none => exact blocked buf taken
    | some found =>
      obtain ⟨item, rest⟩ := found
      rw [failsLast_iff, taken]
      cases item with
      | ok raw =>
        have shorter : rest.length < size := by
          rw [← length]
          exact (deframing codec wording encoding max).shorter taken
        rw [errorsTerminal_of_other (poll_frame codec taken) (fun _ => by simp)]
        exact inductionHypothesis rest.length shorter rfl
      | error error =>
        rw [errorsTerminal_of_error (poll_frame codec taken)]
        exact ended_iff codec closes

/-- An error of the reader is terminal on exactly those bodies that fail last of all. -/
theorem reader_errorsTerminal_iff (closes : Closes close) :
    ErrorsTerminal (pollWith codec close wording encoding max) ⟨⟨buf, false, body⟩, r⟩ ↔
      FailsLast codec wording encoding max ((close r []).1 = .ready none) buf body := by
  induction body generalizing buf with
  | nil =>
    apply reader_iff_of_blocked codec closes
    intro buf more
    rw [failsLast_iff, more]
    by_cases empty : buf = []
    · subst empty
      have behind := @ended_behind codec ρ close wording encoding max closes r
      rw [errorsTerminal_step, poll_end codec more]
      exact iff_of_true ⟨fun _ _ => behind, behind.errorsTerminal⟩ rfl
    · obtain ⟨error, failed⟩ := closes.leftover r buf empty
      have polled := @poll_end codec ρ close wording encoding max r buf false more
      have again := @poll_end codec ρ close wording encoding max r buf true more
      rw [failed] at polled again
      rw [errorsTerminal_of_error polled, ended_step, again]
      refine iff_of_false ?_ empty
      rintro ⟨now, _⟩
      cases now
  | cons answer body inductionHypothesis =>
    apply reader_iff_of_blocked codec closes
    intro buf more
    rw [failsLast_iff, more]
    cases answer with
    | chunk bytes =>
      rw [errorsTerminal_congr (poll_chunk codec more)]
      exact inductionHypothesis
    | failed error =>
      rw [errorsTerminal_of_error (poll_failed codec more)]
      exact ended_iff codec closes
    | pending =>
      rw [errorsTerminal_of_other (poll_pending codec more) (fun _ => by simp)]
      exact inductionHypothesis

end Reader

section Readers

variable (codec : GzipCodec) (base64 : Base64) (encoding : Compression) (max : Nat)

theorem partialFrame_nil : partialFrame [] = none := rfl

theorem partialFrame_filled {buf : List UInt8} (filled : buf ≠ []) :
    ∃ status, partialFrame buf = some status := by
  cases buf with
  | nil => exact absurd rfl filled
  | cons b rest => exact ⟨_, rfl⟩

private theorem closes_deframe : Closes DeframeStream.close := by
  constructor
  · intro r buf filled
    obtain ⟨status, found⟩ := partialFrame_filled filled
    exact ⟨status, by rw [DeframeStream.close, found]; rfl⟩
  · exact fun _ => rfl

private theorem closes_response : Closes (GrpcResponseBody.close base64) := by
  constructor
  · intro r buf filled
    obtain ⟨status, found⟩ := partialFrame_filled filled
    exact ⟨status, by rw [GrpcResponseBody.close, found]⟩
  · intro r
    have settled (r : GrpcResponseBody.Trailing) (checked : r.trailersChecked = true) :
        GrpcResponseBody.close base64 r [] = (.ready none, r) := by
      simp only [GrpcResponseBody.close, partialFrame_nil, checked, if_true]
    apply settled
    simp only [GrpcResponseBody.close, partialFrame_nil]
    split
    · assumption
    · split
      · rfl
      · split
        · rfl
        · rfl

/-- Errors are terminal in both readers over a body with these trailers. -/
structure StreamErrorsTerminal (pendings : Nat) (trailers : Option HeaderMap)
    (body : List DataAnswer) : Prop where
  deframeStream : ErrorsTerminal (DeframeStream.poll codec encoding max) (.new body ())
  grpcResponseBody : ErrorsTerminal (GrpcResponseBody.poll codec base64 encoding max)
    (.new body { pendings, trailers })

/-- The trailers are there, and tell no failure. -/
def TrailersQuiet (pendings : Nat) (trailers : Option HeaderMap) : Prop :=
  pendings = 0 ∧ GrpcResponseBody.terminalStatus base64 trailers = none

private theorem response_quiet_iff (pendings : Nat) (trailers : Option HeaderMap) :
    (GrpcResponseBody.close base64 { pendings, trailers } []).1 = .ready none ↔
      TrailersQuiet base64 pendings trailers := by
  simp only [GrpcResponseBody.close, partialFrame_nil, Bool.false_eq_true, if_false]
  cases pendings with
  | succ pendings => simp [TrailersQuiet]
  | zero =>
    cases status : GrpcResponseBody.terminalStatus base64 trailers with
    | none => simp [TrailersQuiet, status]
    | some status' => simp [TrailersQuiet, status]

/-- An error is the last item of both readers exactly on the bodies that fail last of all: at the
end of the body, or at a whole frame or between two with nothing behind but the end, where the
trailers tell nothing either. -/
theorem streamErrors_terminal_iff (pendings : Nat) (trailers : Option HeaderMap)
    (body : List DataAnswer) :
    StreamErrorsTerminal codec base64 encoding max pendings trailers body ↔
      FailsLast codec DeframeStream.wording encoding max True [] body ∧
        FailsLast codec GrpcResponseBody.wording encoding max (TrailersQuiet base64 pendings trailers)
          [] body := by
  have server := @reader_errorsTerminal_iff codec Unit DeframeStream.close DeframeStream.wording
    encoding max () [] body closes_deframe
  have client := @reader_errorsTerminal_iff codec _ (GrpcResponseBody.close base64)
    GrpcResponseBody.wording encoding max { pendings, trailers } [] body (closes_response base64)
  rw [response_quiet_iff] at client
  rw [show ((DeframeStream.close () []).1 = .ready none) = True from eq_true rfl] at server
  constructor
  · intro terminal
    exact ⟨server.mp terminal.deframeStream, client.mp terminal.grpcResponseBody⟩
  · rintro ⟨first, second⟩
    exact ⟨server.mpr first, client.mpr second⟩

/-- A frame over the maximum is refused again at every poll. -/
theorem not_streamErrors_terminal : ¬ StreamErrorsTerminal sampleGzip (fun _ => .ok []) .identity 1 0
    none [.chunk [0, 0, 0, 0, 2]] := by
  intro terminal
  cases terminal.deframeStream 0 _ rfl 0

end Readers

end TptProto.Grpc
