import TptProto.Grpc.HandleRequest
import TptProto.Grpc.RpcStatus
import TptProto.Grpc.Codec

/-! Whether the code that is recorded for a call is the code of the status that is sent. -/

namespace TptProto.Grpc

open TptProto.Core TptProto.Foundation

variable (codec : GzipCodec) (call : Call)

/-- The code under which a result is recorded. -/
def recordedCode : Except Status HandlerOutput → Code
  | .ok _ => .ok
  | .error e => e.code

/-- The code in the trailers that are sent for a status. -/
def sentCode (status : Status) : Option Code :=
  match status.finishingTrailers with
  | .ok trailers => some (Status.trailersCode trailers)
  | _ => none

/-- What was told to the instrumentor and to the log of a call, and what went out in trailers. -/
structure Ledger where
  instrumented : Option Code := none
  logged : List Code := []
  sent : List Code := []

namespace Ledger

/-- `CallInstrumentor::finish_with_status`: only the first code counts. -/
def finishWithStatus (instrumented : Option Code) (status : Code) : Option Code :=
  match instrumented with
  | some first => some first
  | none => some status

/-- The instrumentor is told, then the log. -/
def record (ledger : Ledger) (code : Code) : Ledger :=
  { ledger with
    instrumented := finishWithStatus ledger.instrumented code
    logged := ledger.logged ++ [code] }

/-- A step that chooses a result records its code, and a status that goes out is sent. -/
def after (ledger : Ledger) (event : Event) (phase : Phase) : Ledger :=
  match event, phase with
  | .admitted, .opening result | .selected _, .opening result =>
    ledger.record (recordedCode result)
  | .statusSent status, _ => { ledger with sent := ledger.sent ++ (sentCode status).toList }
  | _, _ => ledger

/-- One code was recorded in both places, and it is the code of the one status sent. -/
def Balanced (ledger : Ledger) : Prop :=
  ∃ code, ledger.instrumented = some code ∧ ledger.logged = [code] ∧ ledger.sent = [code]

end Ledger

/-- A call with its ledger. -/
structure Books where
  task : CallState
  ledger : Ledger := {}

namespace Books

/-- One step of the task, and what it adds to the ledger. -/
def Step (books : Books) (event : Event) (next : Books) : Prop :=
  Grpc.Step codec call books.task event next.task ∧
    next.ledger = books.ledger.after event next.task.phase

/-- Nothing fails to be sent, and no other code takes the place of a recorded one. -/
def Truthful (books : Books) : Event → Prop
  | .selected .work => ∀ output, books.task.result = some (.ok output) → output.status.code = .ok
  | .openFailed _ => ∀ result, books.task.phase = .opening result →
    recordedCode result = .internal
  | .itemFailed status => status.code = .ok
  | .sendFailed | .statusFailed => False
  | _ => True

end Books

section Sending

private theorem insertRaw_sorted {m : Metadata} (sorted : SortedMap.Sorted m.map) (key : String)
    (value : List UInt8) : SortedMap.Sorted (m.insertRaw key value).map :=
  sorted.insert key value

private theorem forward_sorted {metadata m : Metadata} (sorted : SortedMap.Sorted m.map)
    (keys : List String) :
    SortedMap.Sorted (keys.foldl (Status.forward metadata) m).map := by
  induction keys generalizing m with
  | nil => exact sorted
  | cons key rest inductionHypothesis =>
    apply inductionHypothesis
    unfold Status.forward
    split
    · exact sorted
    · split
      · exact insertRaw_sorted sorted _ _
      · exact sorted

private theorem toTrailers_sorted (status : Status) :
    ∃ trailers, status.toTrailers = .ok trailers ∧ SortedMap.Sorted trailers.map := by
  have code : SortedMap.Sorted (({} : Metadata).insertRaw "grpc-status"
      (asBytes (toString status.code.asI32))).map := insertRaw_sorted SortedMap.sorted_nil _ _
  unfold Status.toTrailers
  rw [encodeGoogleRpcStatus_eq]
  by_cases silent : status.message = "" <;> by_cases plain : status.details = [] <;>
    simp only [silent, plain, if_true, if_false, Outcome.ok_bind]
  · exact ⟨_, rfl, forward_sorted code _⟩
  · exact ⟨_, rfl, forward_sorted (insertRaw_sorted code _ _) _⟩
  · exact ⟨_, rfl, forward_sorted (insertRaw_sorted code _ _) _⟩
  · exact ⟨_, rfl, forward_sorted (insertRaw_sorted (insertRaw_sorted code _ _) _ _) _⟩

/-- The code in the trailers is always that of the status. -/
theorem sentCode_eq (status : Status) : sentCode status = some status.code := by
  obtain ⟨trailers, built, sorted⟩ := toTrailers_sorted status
  have sorted' := insertRaw_sorted sorted "grpc-status" (asBytes (toString status.code.asI32))
  rw [sentCode, Status.finishingTrailers, built, Outcome.ok_bind]
  refine congrArg some (Status.trailersCode_eq ?_)
  split
  · exact (SortedMap.get?_insert sorted _ _ _).trans (if_pos rfl)
  · refine (SortedMap.get?_insert sorted' _ _ _).trans ?_
    rw [if_neg (by decide)]
    exact (SortedMap.get?_insert sorted _ _ _).trans (if_pos rfl)

end Sending

section Results

/-- An output either carries success, or nothing but another status. -/
def HandlerOutput.Shaped (output : HandlerOutput) : Prop :=
  output.status.code = .ok ∨ (output.message = none ∧ output.stream = false)

private theorem shaped_dispatch {kind : MethodKind} {path : String}
    {request : Except Status (Option (List UInt8))} {answer : Except Status (List UInt8)}
    {output : HandlerOutput} (ended : dispatch kind path request answer = .ok output) :
    output.Shaped := by
  have answered {wrap : List UInt8 → HandlerOutput} (fine : ∀ raw, (wrap raw).Shaped)
      (done : answer.bind (fun raw => .ok (wrap raw)) = .ok output) : output.Shaped := by
    cases answer with
    | error status => cases done
    | ok raw =>
      cases done
      exact fine raw
  unfold dispatch at ended
  cases name : methodName path with
  | error status =>
    rw [name] at ended
    cases ended
  | ok method =>
    rw [name] at ended
    cases kind with
    | clientStreaming | bidiStreaming => exact answered (fun _ => .inl rfl) ended
    | unary | serverStreaming =>
      cases request with
      | error status => cases ended
      | ok read =>
        cases read with
        | none =>
          cases ended
          exact .inr ⟨rfl, rfl⟩
        | some message => exact answered (fun _ => .inl rfl) ended

end Results

section Keeping

variable {codec call}

/-- Both places know one code, and nothing is sent. -/
private structure Recorded (ledger : Ledger) (code : Code) : Prop where
  instrumented : ledger.instrumented = some code
  logged : ledger.logged = [code]
  unsent : ledger.sent = []

/-- What will be sent, if anything is, is what is recorded. -/
private def Good (ledger : Ledger) : Phase → Prop
  | .received | .waiting => ledger = {}
  | .opening result => Recorded ledger (recordedCode result) ∧
      ∀ output, result = .ok output → output.status.code = .ok
  | .sending _ _ status | .streaming status => Recorded ledger .ok ∧ status.code = .ok
  | .closing status => Recorded ledger status.code
  | .done => ledger.Balanced

/-- What is sent is not what is recorded. -/
private def Bad (ledger : Ledger) : Phase → Prop
  | .opening result => Recorded ledger .ok ∧ ∃ output, result = .ok output ∧
      output.message = none ∧ output.stream = false ∧ output.status.code ≠ .ok
  | .closing status => ∃ code, Recorded ledger code ∧ status.code ≠ code
  | .done => ¬ ledger.Balanced
  | _ => False

private theorem recorded_first (code : Code) : Recorded (Ledger.record {} code) code :=
  ⟨rfl, rfl, rfl⟩

/-- Before the task waits, it records a refusal. -/
private theorem good_admitted :
    Good (Ledger.after {} .admitted call.admission) call.admission := by
  unfold Call.admission
  split
  · exact ⟨recorded_first _, nofun⟩
  · split
    · rfl
    · exact ⟨recorded_first _, nofun⟩

private theorem good_afterMessage {ledger : Ledger} {stream : Bool} {status : Status}
    (recorded : Recorded ledger .ok) (fine : status.code = .ok) :
    Good ledger (afterMessage stream status) := by
  cases stream with
  | true => exact ⟨recorded, fine⟩
  | false =>
    show Recorded ledger status.code
    rw [fine]
    exact recorded

private theorem good_opened {ledger : Ledger} {result : Except Status HandlerOutput}
    (recorded : Recorded ledger (recordedCode result))
    (fine : ∀ output, result = .ok output → output.status.code = .ok) :
    Good ledger (afterOpening result) := by
  cases result with
  | error status => exact recorded
  | ok output =>
    obtain ⟨message, stream, status⟩ := output
    cases message with
    | none => exact good_afterMessage recorded (fine _ rfl)
    | some raw => exact ⟨recorded, fine _ rfl⟩

private theorem balanced_sent {ledger : Ledger} {code : Code} {status : Status}
    (recorded : Recorded ledger code) :
    Ledger.Balanced { ledger with sent := ledger.sent ++ (sentCode status).toList } ↔
      status.code = code := by
  obtain ⟨instrumented, logged, unsent⟩ := recorded
  simp [Ledger.Balanced, instrumented, logged, unsent, sentCode_eq, eq_comm]

private theorem not_balanced {ledger : Ledger} {code : Code} (recorded : Recorded ledger code) :
    ¬ ledger.Balanced := by
  rintro ⟨_, _, _, sent⟩
  rw [recorded.unsent] at sent
  cases sent

private theorem good_step {books next : Books} {event : Event}
    (good : Good books.ledger books.task.phase) (truthful : books.Truthful event)
    (step : books.Step codec call event next) : Good next.ledger next.task.phase := by
  obtain ⟨task, ledger⟩ := books
  obtain ⟨task', ledger'⟩ := next
  obtain ⟨taken, added⟩ := step
  simp only at taken added good ⊢
  rw [added]
  cases taken with
  | admitted here =>
    rw [here] at good
    cases good
    exact good_admitted
  | worked here pending => exact good
  | expired due once | shutdown | cancelled => exact good
  | workSelected here ready =>
    rw [here] at good
    cases good
    refine ⟨recorded_first _, fun output same => truthful output ?_⟩
    rw [← same]
    exact ready
  | shutdownSelected here ready | deadlineSelected here ready =>
    rw [here] at good
    cases good
    exact ⟨recorded_first _, nofun⟩
  | opened here =>
    rw [here] at good
    exact good_opened good.1 good.2
  | openFailed here =>
    rw [here] at good
    have recorded := good.1
    rw [truthful _ here] at recorded
    exact recorded
  | messageSent here framed =>
    rw [here] at good
    exact good_afterMessage good.1 good.2
  | sendFailed here | statusFailed here => exact truthful.elim
  | item here =>
    rw [here] at good
    exact good
  | itemFailed here =>
    rw [here] at good
    show Recorded ledger _
    rw [show _ = Code.ok from truthful]
    exact good.1
  | streamEnded here =>
    rw [here] at good
    show Recorded ledger _
    rw [good.2]
    exact good.1
  | statusSent here =>
    rw [here] at good
    exact (balanced_sent good).mpr rfl

/-- The results of dispatching. -/
private def Dispatched (books : Books) : Prop :=
  ∀ output, books.task.result = some (.ok output) → output.Shaped

private theorem dispatched_step {books next : Books} {event : Event}
    (dispatched : Dispatched books) (step : books.Step codec call event next) :
    Dispatched next := by
  obtain ⟨task, ledger⟩ := books
  obtain ⟨task', ledger'⟩ := next
  obtain ⟨taken, _⟩ := step
  intro output ended
  simp only at taken ended
  cases taken with
  | worked here pending => exact shaped_dispatch (Option.some.inj ended)
  | _ => exact dispatched output ended

/-- What breaks the condition spoils the books. -/
private theorem bad_of_good {books next : Books} {event : Event}
    (good : Good books.ledger books.task.phase) (dispatched : Dispatched books)
    (untruthful : ¬ books.Truthful event) (step : books.Step codec call event next) :
    Bad next.ledger next.task.phase := by
  obtain ⟨task, ledger⟩ := books
  obtain ⟨task', ledger'⟩ := next
  obtain ⟨taken, added⟩ := step
  simp only at taken added good ⊢
  rw [added]
  cases taken with
  | workSelected here ready =>
    rw [here] at good
    cases good
    rename_i result
    obtain ⟨output, held⟩ := Classical.not_forall.mp untruthful
    obtain ⟨same, code⟩ := Classical.not_imp.mp held
    obtain rfl := Option.some.inj (ready.symm.trans same)
    rcases dispatched output same with fine | ⟨message, stream⟩
    · exact (code fine).elim
    · exact ⟨recorded_first _, output, rfl, message, stream, code⟩
  | openFailed here =>
    rw [here] at good
    refine ⟨_, good.1, fun internal => untruthful fun result same => ?_⟩
    cases here.symm.trans same
    exact internal.symm
  | itemFailed here =>
    rw [here] at good
    exact ⟨_, good.1, untruthful⟩
  | sendFailed here =>
    rw [here] at good
    exact not_balanced good.1
  | statusFailed here =>
    rw [here] at good
    exact not_balanced good
  | _ => exact (untruthful trivial).elim

private theorem bad_step {books next : Books} {event : Event}
    (bad : Bad books.ledger books.task.phase) (step : books.Step codec call event next) :
    Bad next.ledger next.task.phase := by
  obtain ⟨task, ledger⟩ := books
  obtain ⟨task', ledger'⟩ := next
  obtain ⟨taken, added⟩ := step
  simp only at taken added bad ⊢
  rw [added]
  cases taken with
  | worked here pending => exact bad
  | expired due once | shutdown | cancelled => exact bad
  | opened here =>
    rw [here] at bad
    obtain ⟨recorded, output, rfl, message, stream, code⟩ := bad
    have closes : afterOpening (.ok output) = .closing output.status := by
      simp [afterOpening, message, stream, afterMessage]
    simp only [closes]
    exact ⟨_, recorded, code⟩
  | openFailed here =>
    rw [here] at bad
    exact ⟨_, bad.1, nofun⟩
  | statusSent here =>
    rw [here] at bad
    obtain ⟨code, recorded, other⟩ := bad
    exact mt (balanced_sent recorded).mp other
  | statusFailed here =>
    rw [here] at bad
    obtain ⟨code, recorded, _⟩ := bad
    exact not_balanced recorded
  | admitted here | workSelected here | shutdownSelected here | deadlineSelected here
  | messageSent here | sendFailed here | item here | itemFailed here | streamEnded here =>
    rw [here] at bad
    exact bad.elim

private theorem step_unique (books : Books) (event : Event) (first second : Books)
    (one : books.Step codec call event first) (other : books.Step codec call event second) :
    first = second := by
  obtain ⟨taken, added⟩ := one
  obtain ⟨taken', added'⟩ := other
  obtain ⟨task, ledger⟩ := first
  obtain ⟨task', ledger'⟩ := second
  obtain rfl := Step.unique _ _ _ _ taken taken'
  rw [Books.mk.injEq]
  exact ⟨rfl, added.trans added'.symm⟩

private def Sound (books : Books) : Prop :=
  Good books.ledger books.task.phase ∧ Dispatched books

private def Spoiled (books : Books) : Prop := Bad books.ledger books.task.phase

/-- In a call that was handled to the end, what was recorded was sent exactly if every step was
truthful. -/
theorem recorded_iff_sent {events : List Event} {final : Books}
    (trace : Trace (Books.Step codec call) { task := call.start } events final)
    (ended : final.task.phase = .done) :
    final.ledger.Balanced ↔
      Throughout (Books.Step codec call) Books.Truthful { task := call.start } events := by
  obtain ⟨good, bad⟩ := @Trace.fate _ _ _ Books.Truthful Sound Spoiled _ _ _ trace step_unique
    ⟨rfl, nofun⟩
    (fun _ _ _ sound truthful step =>
      ⟨good_step sound.1 truthful step, dispatched_step sound.2 step⟩)
    (fun _ _ _ sound untruthful step => bad_of_good sound.1 sound.2 untruthful step)
    (fun _ _ _ spoiled step => bad_step spoiled step)
  unfold Sound at good
  unfold Spoiled at bad
  rw [ended] at good bad
  constructor
  · intro balanced
    refine Classical.byContradiction fun left => bad left balanced
  · intro all
    exact (good all).1

end Keeping

/-- A unary call on a server without a security policy. -/
private def unaryCall : Call where
  path := "/s/m"
  kind := .unary
  config := {}
  ctx := ⟨{}, none, false, none⟩
  policy := none
  handled := true

private theorem step_after {codec : GzipCodec} {call : Call} {books : Books} {event : Event}
    {task : CallState} (taken : Step codec call books.task event task) :
    books.Step codec call event ⟨task, books.ledger.after event task.phase⟩ := ⟨taken, rfl⟩

/-- The handler answers with a message. -/
private def answered : List Event :=
  [.admitted, .worked (.ok (some [])) (.ok [1]), .selected .work, .opened, .messageSent [1],
    .statusSent (.new .ok "")]

private theorem answered_trace : Trace (Books.Step sampleGzip unaryCall)
    { task := unaryCall.start } answered
    ⟨⟨.done, some (.ok ⟨some [1], false, .new .ok ""⟩), false, false, false⟩,
      ⟨some .ok, [.ok], [.ok]⟩⟩ :=
  .cons (step_after (.admitted rfl)) (.cons (step_after (.worked rfl rfl))
    (.cons (step_after (.workSelected rfl rfl)) (.cons (step_after (.opened rfl))
      (.cons (step_after (.messageSent rfl rfl)) (.cons (step_after (.statusSent rfl)) (.nil _))))))

private theorem answered_truthful : Throughout (Books.Step sampleGzip unaryCall) Books.Truthful
    { task := unaryCall.start } answered := by
  refine .follow step_unique trivial (step_after (.admitted rfl)) ?_
  refine .follow step_unique trivial (step_after (.worked rfl rfl)) ?_
  refine .follow step_unique (fun output same => ?_) (step_after (.workSelected rfl rfl)) ?_
  · cases same
    rfl
  refine .follow step_unique trivial (step_after (.opened rfl)) ?_
  refine .follow step_unique trivial (step_after (.messageSent rfl rfl)) ?_
  exact .follow step_unique trivial (step_after (.statusSent rfl)) .nil

theorem recorded_answered : Ledger.Balanced ⟨some .ok, [.ok], [.ok]⟩ :=
  (recorded_iff_sent answered_trace rfl).mpr answered_truthful

/-- The client sends no message. -/
private def unasked : List Event :=
  [.admitted, .worked (.ok none) (.ok [1]), .selected .work, .opened,
    .statusSent (.new .invalidArgument "missing request message")]

private theorem unasked_trace : Trace (Books.Step sampleGzip unaryCall)
    { task := unaryCall.start } unasked
    ⟨⟨.done, some (.ok ⟨none, false, .new .invalidArgument "missing request message"⟩), false,
      false, false⟩, ⟨some .ok, [.ok], [.invalidArgument]⟩⟩ :=
  .cons (step_after (.admitted rfl)) (.cons (step_after (.worked rfl rfl))
    (.cons (step_after (.workSelected rfl rfl)) (.cons (step_after (.opened rfl))
      (.cons (step_after (.statusSent rfl)) (.nil _)))))

/-- A missing message is recorded as a success and answered with `INVALID_ARGUMENT`. -/
theorem not_recorded_unasked :
    ∃ final, Trace (Books.Step sampleGzip unaryCall) { task := unaryCall.start } unasked final ∧
      final.task.phase = .done ∧ ¬ final.ledger.Balanced := by
  refine ⟨_, unasked_trace, rfl, ?_⟩
  rintro ⟨code, _, logged, sent⟩
  cases logged
  cases sent

end TptProto.Grpc
