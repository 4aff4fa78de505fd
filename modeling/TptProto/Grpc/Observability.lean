import TptProto.Grpc.Status

/-! The counters of the in-memory recorder over the calls that are instrumented with it. -/

namespace TptProto.Grpc

open TptProto.Core TptProto.Foundation

inductive StreamingType where
  | unary
  | serverStreaming
  | clientStreaming
  | bidiStreaming
  deriving DecidableEq, Repr

structure CallLabels where
  service : String
  method : String
  status : Code
  streamingType : StreamingType
  deriving DecidableEq, Repr

structure MetricSample where
  callStarted : UInt64 := 0
  callCompleted : UInt64 := 0
  streamStarted : UInt64 := 0
  streamClosed : UInt64 := 0
  messageSent : UInt64 := 0
  messageRecv : UInt64 := 0
  bytesSent : UInt64 := 0
  bytesRecv : UInt64 := 0
  cancelled : UInt64 := 0
  deadlineExceeded : UInt64 := 0
  connectionError : UInt64 := 0
  streamReset : UInt64 := 0
  completedDurationMicros : UInt64 := 0
  deriving DecidableEq, Repr

/-- The sample of each label set; one that was never recorded is all zeros. -/
abbrev InMemoryMetricsRecorder := CallLabels → MetricSample

namespace InMemoryMetricsRecorder

variable (self : InMemoryMetricsRecorder) (labels : CallLabels)

def withSample (f : MetricSample → MetricSample) : InMemoryMetricsRecorder :=
  fun other => if other = labels then f (self other) else self other

def recordCallStarted : InMemoryMetricsRecorder :=
  withSample self labels fun s => { s with callStarted := s.callStarted + 1 }

def recordCallCompleted (micros : UInt64) : InMemoryMetricsRecorder :=
  withSample self labels fun s => { s with
    callCompleted := s.callCompleted + 1
    completedDurationMicros := s.completedDurationMicros + micros }

def recordStreamStarted : InMemoryMetricsRecorder :=
  withSample self labels fun s => { s with streamStarted := s.streamStarted + 1 }

def recordStreamClosed : InMemoryMetricsRecorder :=
  withSample self labels fun s => { s with streamClosed := s.streamClosed + 1 }

def recordMessageSent (count : UInt64) : InMemoryMetricsRecorder :=
  withSample self labels fun s => { s with messageSent := s.messageSent + count }

def recordMessageRecv (count : UInt64) : InMemoryMetricsRecorder :=
  withSample self labels fun s => { s with messageRecv := s.messageRecv + count }

def recordBytesSent (bytes : UInt64) : InMemoryMetricsRecorder :=
  withSample self labels fun s => { s with bytesSent := s.bytesSent + bytes }

def recordBytesRecv (bytes : UInt64) : InMemoryMetricsRecorder :=
  withSample self labels fun s => { s with bytesRecv := s.bytesRecv + bytes }

def recordCancelled : InMemoryMetricsRecorder :=
  withSample self labels fun s => { s with cancelled := s.cancelled + 1 }

def recordDeadlineExceeded : InMemoryMetricsRecorder :=
  withSample self labels fun s => { s with deadlineExceeded := s.deadlineExceeded + 1 }

def recordConnectionError : InMemoryMetricsRecorder :=
  withSample self labels fun s => { s with connectionError := s.connectionError + 1 }

def recordStreamReset : InMemoryMetricsRecorder :=
  withSample self labels fun s => { s with streamReset := s.streamReset + 1 }

end InMemoryMetricsRecorder

open InMemoryMetricsRecorder

structure CallInstrumentor where
  labels : CallLabels
  finished : Bool := false
  deriving DecidableEq, Repr

namespace CallInstrumentor

variable (metrics : InMemoryMetricsRecorder) (self : CallInstrumentor)

def start (labels : CallLabels) : CallInstrumentor × InMemoryMetricsRecorder :=
  let metrics := recordCallStarted metrics labels
  let metrics :=
    if labels.streamingType ≠ .unary then recordStreamStarted metrics labels else metrics
  (⟨labels, false⟩, metrics)

def messageSent (bytes : UInt64) : InMemoryMetricsRecorder :=
  recordBytesSent (recordMessageSent metrics self.labels 1) self.labels bytes

def messageRecv (bytes : UInt64) : InMemoryMetricsRecorder :=
  recordBytesRecv (recordMessageRecv metrics self.labels 1) self.labels bytes

/-- The call is recorded as completed under its labels, and its stream as closed under the labels
that have the new status. -/
def finishWithStatus (status : Code) (elapsed : UInt64) :
    CallInstrumentor × InMemoryMetricsRecorder :=
  if self.finished then (self, metrics)
  else
    let metrics := recordCallCompleted metrics self.labels elapsed
    let labels : CallLabels := { self.labels with status }
    let metrics :=
      if labels.streamingType ≠ .unary then recordStreamClosed metrics labels else metrics
    (⟨labels, true⟩, metrics)

/-- `CallInstrumentor::drop`. -/
def drop (elapsed : UInt64) : CallInstrumentor × InMemoryMetricsRecorder :=
  if self.finished then (self, metrics) else finishWithStatus metrics self .ok elapsed

end CallInstrumentor

/-- A call with the labels it was started with. -/
structure InstrumentedCall where
  startedWith : CallLabels
  instrumentor : CallInstrumentor
  dropped : Bool := false
  deriving DecidableEq, Repr

/-- A recorder and the calls that were started with it, by their numbers. -/
structure Instrumented where
  metrics : InMemoryMetricsRecorder := fun _ => {}
  calls : List InstrumentedCall := []

/-- What is done to the instrumentor of a call, which is there until it is dropped. -/
inductive CallOp where
  | messageSent (bytes : UInt64)
  | messageRecv (bytes : UInt64)
  | cancelled
  | deadlineExceeded
  | streamReset
  | connectionError
  | finishWithStatus (status : Code) (elapsed : UInt64)
  | drop (elapsed : UInt64)
  deriving DecidableEq, Repr

inductive MetricOp where
  | start (labels : CallLabels)
  | call (number : Nat) (op : CallOp)
  deriving DecidableEq, Repr

namespace InstrumentedCall

variable (self : InstrumentedCall)

def apply (metrics : InMemoryMetricsRecorder) : CallOp → InstrumentedCall × InMemoryMetricsRecorder
  | .messageSent bytes => (self, self.instrumentor.messageSent metrics bytes)
  | .messageRecv bytes => (self, self.instrumentor.messageRecv metrics bytes)
  | .cancelled => (self, recordCancelled metrics self.instrumentor.labels)
  | .deadlineExceeded => (self, recordDeadlineExceeded metrics self.instrumentor.labels)
  | .streamReset => (self, recordStreamReset metrics self.instrumentor.labels)
  | .connectionError => (self, recordConnectionError metrics self.instrumentor.labels)
  | .finishWithStatus status elapsed =>
    let (instrumentor, metrics) := self.instrumentor.finishWithStatus metrics status elapsed
    ({ self with instrumentor }, metrics)
  | .drop elapsed =>
    let (instrumentor, metrics) := self.instrumentor.drop metrics elapsed
    ({ self with instrumentor, dropped := true }, metrics)

/-- The call has not been finished. -/
def unfinished : Bool := !self.instrumentor.finished

def streaming : Bool := self.startedWith.streamingType ≠ .unary

end InstrumentedCall

namespace Instrumented

variable (self : Instrumented)

def step : MetricOp → Instrumented
  | .start labels =>
    let (instrumentor, metrics) := CallInstrumentor.start self.metrics labels
    ⟨metrics, self.calls ++ [⟨labels, instrumentor, false⟩]⟩
  | .call number op =>
    match self.calls[number]? with
    | none => self
    | some call =>
      if call.dropped then self
      else
        let (call, metrics) := call.apply self.metrics op
        ⟨metrics, self.calls.set number call⟩

def run (ops : List MetricOp) : Instrumented := ops.foldl step self

/-- How many calls with these labels are unfinished. -/
def unfinishedCalls (labels : CallLabels) : Nat :=
  self.calls.countP fun call => call.unfinished && call.startedWith = labels

/-- How many of them have a stream. -/
def unfinishedStreams (labels : CallLabels) : Nat :=
  self.calls.countP fun call => call.unfinished && call.startedWith = labels && call.streaming

/-- What was started and has not ended is what is unfinished. -/
structure Balanced (state : Instrumented) : Prop where
  calls : ∀ labels, (state.metrics labels).callStarted - (state.metrics labels).callCompleted =
    UInt64.ofNat (state.unfinishedCalls labels)
  streams : ∀ labels, (state.metrics labels).streamStarted - (state.metrics labels).streamClosed =
    UInt64.ofNat (state.unfinishedStreams labels)

end Instrumented

section Recorder

variable {metrics next last : InMemoryMetricsRecorder} {labels other : CallLabels}

/-- Calls that were started and not completed. -/
def openCalls (metrics : InMemoryMetricsRecorder) (labels : CallLabels) : UInt64 :=
  (metrics labels).callStarted - (metrics labels).callCompleted

/-- Streams that were started and not closed. -/
def openStreams (metrics : InMemoryMetricsRecorder) (labels : CallLabels) : UInt64 :=
  (metrics labels).streamStarted - (metrics labels).streamClosed

/-- The numbers of open calls and streams stay. -/
structure KeepsOpen (metrics next : InMemoryMetricsRecorder) : Prop where
  calls : ∀ labels, openCalls next labels = openCalls metrics labels
  streams : ∀ labels, openStreams next labels = openStreams metrics labels

private theorem keepsOpen_refl (metrics : InMemoryMetricsRecorder) : KeepsOpen metrics metrics :=
  ⟨fun _ => rfl, fun _ => rfl⟩

/-- What an update of one sample leaves alone, it leaves alone for all labels. -/
private theorem withSample_keeps (measure : MetricSample → UInt64) {f : MetricSample → MetricSample}
    (keeps : ∀ s, measure (f s) = measure s) (other : CallLabels) :
    measure (withSample metrics labels f other) = measure (metrics other) := by
  unfold withSample
  split
  · exact keeps _
  · rfl

private theorem keepsOpen_withSample {f : MetricSample → MetricSample}
    (calls : ∀ s, (f s).callStarted - (f s).callCompleted = s.callStarted - s.callCompleted)
    (streams : ∀ s, (f s).streamStarted - (f s).streamClosed = s.streamStarted - s.streamClosed) :
    KeepsOpen metrics (withSample metrics labels f) :=
  ⟨withSample_keeps (fun s => s.callStarted - s.callCompleted) calls,
    withSample_keeps (fun s => s.streamStarted - s.streamClosed) streams⟩

private theorem KeepsOpen.trans (first : KeepsOpen metrics next) (second : KeepsOpen next last) :
    KeepsOpen metrics last :=
  ⟨fun labels => (second.calls labels).trans (first.calls labels),
    fun labels => (second.streams labels).trans (first.streams labels)⟩

/-- One, for the label set in question. -/
def oneIf (condition : Prop) [Decidable condition] : Nat := if condition then 1 else 0

/-- An update that adds one adds it for its own labels only. -/
private theorem withSample_adds (measure : MetricSample → UInt64) {f : MetricSample → MetricSample}
    (adds : ∀ s, measure (f s) = measure s + 1) (other : CallLabels) :
    measure (withSample metrics labels f other) =
      measure (metrics other) + UInt64.ofNat (oneIf (other = labels)) := by
  unfold withSample oneIf
  split
  · exact adds _
  · simp

/-- Likewise for one that takes one away. -/
private theorem withSample_takes (measure : MetricSample → UInt64) {f : MetricSample → MetricSample}
    (takes : ∀ s, measure s = measure (f s) + 1) (other : CallLabels) :
    measure (metrics other) =
      measure (withSample metrics labels f other) + UInt64.ofNat (oneIf (other = labels)) := by
  unfold withSample oneIf
  split
  · exact takes _
  · simp

private theorem openCalls_recordCallStarted (other : CallLabels) :
    openCalls (recordCallStarted metrics labels) other =
      openCalls metrics other + UInt64.ofNat (oneIf (other = labels)) := by
  unfold openCalls recordCallStarted
  exact withSample_adds (fun s => s.callStarted - s.callCompleted) (by grind) other

private theorem openCalls_recordCallCompleted (elapsed : UInt64) (other : CallLabels) :
    openCalls metrics other = openCalls (recordCallCompleted metrics labels elapsed) other +
      UInt64.ofNat (oneIf (other = labels)) := by
  unfold openCalls recordCallCompleted
  exact withSample_takes (fun s => s.callStarted - s.callCompleted) (by grind) other

private theorem openStreams_recordStreamStarted (other : CallLabels) :
    openStreams (recordStreamStarted metrics labels) other =
      openStreams metrics other + UInt64.ofNat (oneIf (other = labels)) := by
  unfold openStreams recordStreamStarted
  exact withSample_adds (fun s => s.streamStarted - s.streamClosed) (by grind) other

private theorem openStreams_recordStreamClosed (other : CallLabels) :
    openStreams metrics other = openStreams (recordStreamClosed metrics labels) other +
      UInt64.ofNat (oneIf (other = labels)) := by
  unfold openStreams recordStreamClosed
  exact withSample_takes (fun s => s.streamStarted - s.streamClosed) (by grind) other

private theorem openStreams_recordCallStarted (other : CallLabels) :
    openStreams (recordCallStarted metrics labels) other = openStreams metrics other := by
  unfold openStreams recordCallStarted
  exact withSample_keeps (fun s => s.streamStarted - s.streamClosed) (by simp) other

private theorem openStreams_recordCallCompleted (elapsed : UInt64) (other : CallLabels) :
    openStreams (recordCallCompleted metrics labels elapsed) other = openStreams metrics other := by
  unfold openStreams recordCallCompleted
  exact withSample_keeps (fun s => s.streamStarted - s.streamClosed) (by simp) other

private theorem openCalls_recordStreamStarted (other : CallLabels) :
    openCalls (recordStreamStarted metrics labels) other = openCalls metrics other := by
  unfold openCalls recordStreamStarted
  exact withSample_keeps (fun s => s.callStarted - s.callCompleted) (by simp) other

private theorem openCalls_recordStreamClosed (other : CallLabels) :
    openCalls (recordStreamClosed metrics labels) other = openCalls metrics other := by
  unfold openCalls recordStreamClosed
  exact withSample_keeps (fun s => s.callStarted - s.callCompleted) (by simp) other

private theorem openCalls_started (other : CallLabels) :
    openCalls (CallInstrumentor.start metrics labels).2 other =
      openCalls metrics other + UInt64.ofNat (oneIf (other = labels)) := by
  unfold CallInstrumentor.start
  dsimp only
  split
  · rw [openCalls_recordStreamStarted, openCalls_recordCallStarted]
  · rw [openCalls_recordCallStarted]

private theorem openStreams_started (other : CallLabels) :
    openStreams (CallInstrumentor.start metrics labels).2 other = openStreams metrics other +
      UInt64.ofNat (oneIf (other = labels ∧ labels.streamingType ≠ .unary)) := by
  unfold CallInstrumentor.start
  dsimp only
  split
  · rename_i streaming
    rw [openStreams_recordStreamStarted, openStreams_recordCallStarted]
    simp [streaming]
  · rename_i single
    rw [openStreams_recordCallStarted]
    simp [single, oneIf]

variable {self : CallInstrumentor} {status : Code} {elapsed : UInt64}

private theorem openCalls_finished (unfinished : self.finished = false) (other : CallLabels) :
    openCalls metrics other = openCalls (self.finishWithStatus metrics status elapsed).2 other +
      UInt64.ofNat (oneIf (other = self.labels)) := by
  unfold CallInstrumentor.finishWithStatus
  rw [if_neg (by simp [unfinished])]
  dsimp only
  split
  · rw [openCalls_recordStreamClosed]
    exact openCalls_recordCallCompleted elapsed other
  · exact openCalls_recordCallCompleted elapsed other

private theorem openStreams_finished (unfinished : self.finished = false) (other : CallLabels) :
    openStreams metrics other = openStreams (self.finishWithStatus metrics status elapsed).2 other +
      UInt64.ofNat
        (oneIf (other = { self.labels with status } ∧ self.labels.streamingType ≠ .unary)) := by
  unfold CallInstrumentor.finishWithStatus
  rw [if_neg (by simp [unfinished])]
  dsimp only
  split
  · rename_i streaming
    rw [← @openStreams_recordCallCompleted metrics self.labels elapsed other,
      @openStreams_recordStreamClosed _ { self.labels with status } other]
    simp [streaming]
  · rename_i single
    rw [openStreams_recordCallCompleted]
    simp [single, oneIf]

end Recorder

/-- The status with which an operation would finish its call. -/
def CallOp.status? : CallOp → Option Code
  | .finishWithStatus status _ => some status
  | .drop _ => some .ok
  | _ => none

namespace InstrumentedCall

variable {call : InstrumentedCall} {metrics : InMemoryMetricsRecorder} {op : CallOp}

/-- An operation that does not finish the call leaves it and the balance as they are. -/
private theorem apply_keeps (keeps : call.unfinished = false ∨ op.status? = none) :
    (call.apply metrics op).1.startedWith = call.startedWith ∧
      (call.apply metrics op).1.instrumentor = call.instrumentor ∧
      KeepsOpen metrics (call.apply metrics op).2 := by
  cases op with
  | messageSent bytes =>
    simp only [apply, CallInstrumentor.messageSent, recordMessageSent, recordBytesSent]
    exact ⟨trivial, trivial, (keepsOpen_withSample (by simp) (by simp)).trans
      (keepsOpen_withSample (by simp) (by simp))⟩
  | messageRecv bytes =>
    simp only [apply, CallInstrumentor.messageRecv, recordMessageRecv, recordBytesRecv]
    exact ⟨trivial, trivial, (keepsOpen_withSample (by simp) (by simp)).trans
      (keepsOpen_withSample (by simp) (by simp))⟩
  | cancelled =>
    simp only [apply, recordCancelled]
    exact ⟨trivial, trivial, keepsOpen_withSample (by simp) (by simp)⟩
  | deadlineExceeded =>
    simp only [apply, recordDeadlineExceeded]
    exact ⟨trivial, trivial, keepsOpen_withSample (by simp) (by simp)⟩
  | streamReset =>
    simp only [apply, recordStreamReset]
    exact ⟨trivial, trivial, keepsOpen_withSample (by simp) (by simp)⟩
  | connectionError =>
    simp only [apply, recordConnectionError]
    exact ⟨trivial, trivial, keepsOpen_withSample (by simp) (by simp)⟩
  | finishWithStatus status elapsed =>
    have finished : call.instrumentor.finished = true := by simpa [unfinished, CallOp.status?] using keeps
    simp only [apply, CallInstrumentor.finishWithStatus, finished, if_true]
    exact ⟨trivial, trivial, keepsOpen_refl metrics⟩
  | drop elapsed =>
    have finished : call.instrumentor.finished = true := by simpa [unfinished, CallOp.status?] using keeps
    simp only [apply, CallInstrumentor.drop, finished, if_true]
    exact ⟨trivial, trivial, keepsOpen_refl metrics⟩

/-- One that does records the end under the call's labels, and the end of its stream under the
labels with the new status. -/
private theorem apply_finishes {status : Code} (unfinished : call.unfinished = true)
    (finishes : op.status? = some status) :
    (call.apply metrics op).1.startedWith = call.startedWith ∧
      (call.apply metrics op).1.unfinished = false ∧
      ∃ elapsed, (call.apply metrics op).2 =
        (call.instrumentor.finishWithStatus metrics status elapsed).2 := by
  have going : call.instrumentor.finished = false := by
    simpa [InstrumentedCall.unfinished] using unfinished
  cases op with
  | finishWithStatus status' elapsed =>
    cases finishes
    refine ⟨rfl, ?_, elapsed, rfl⟩
    simp [apply, CallInstrumentor.finishWithStatus, going, InstrumentedCall.unfinished]
  | drop elapsed =>
    cases finishes
    refine ⟨rfl, ?_, elapsed, ?_⟩
    · simp [apply, CallInstrumentor.drop, CallInstrumentor.finishWithStatus, going,
        InstrumentedCall.unfinished]
    · simp [apply, CallInstrumentor.drop, going]
  | _ => cases finishes

end InstrumentedCall

namespace Instrumented

variable {self : Instrumented} {op : MetricOp}

/-- The labels of an unfinished call are those that it was started with. -/
def Faithful (self : Instrumented) : Prop :=
  ∀ call ∈ self.calls, call.unfinished = true → call.instrumentor.labels = call.startedWith

/-- An operation that finishes a call with a stream does so with the status that the call was
labelled with from the start. -/
def Matching (self : Instrumented) : MetricOp → Prop
  | .start _ => True
  | .call number op => ∀ call status, self.calls[number]? = some call → call.dropped = false →
      call.unfinished = true → call.streaming = true → op.status? = some status →
      status = call.startedWith.status

private theorem ofNat_cancel {a b : UInt64} {n m k : Nat} (before : a = UInt64.ofNat n)
    (moved : a = b + UInt64.ofNat k) (counted : n = m + k) : b = UInt64.ofNat m := by
  rw [before, counted, UInt64.ofNat_add, UInt64.add_left_inj] at moved
  exact moved.symm

/-- One more entry counts if it is of the kind. -/
private theorem countP_concat {α : Type} (p : α → Bool) (items : List α) (item : α) :
    (items ++ [item]).countP p = items.countP p + oneIf (p item = true) := by
  rw [List.countP_append, List.countP_singleton, oneIf]

/-- An entry in another's place changes the count by those two. -/
private theorem countP_replace {α : Type} {p : α → Bool} {items : List α} {number : Nat} {old : α}
    (there : items[number]? = some old) (new : α) :
    (items.set number new).countP p + oneIf (p old = true) =
      items.countP p + oneIf (p new = true) := by
  obtain ⟨inside, same⟩ := List.getElem?_eq_some_iff.mp there
  have least := List.boole_getElem_le_countP (p := p) inside
  rw [List.countP_set inside, same]
  rw [same] at least
  unfold oneIf
  omega

variable {metrics : InMemoryMetricsRecorder}

private theorem balanced_iff : self.Balanced ↔
    (∀ labels, openCalls self.metrics labels = UInt64.ofNat (self.unfinishedCalls labels)) ∧
      ∀ labels, openStreams self.metrics labels = UInt64.ofNat (self.unfinishedStreams labels) :=
  ⟨fun balanced => ⟨balanced.calls, balanced.streams⟩, fun both => ⟨both.1, both.2⟩⟩

private theorem oneIf_congr {p q : Prop} [Decidable p] [Decidable q] (same : p ↔ q) :
    oneIf p = oneIf q := by
  unfold oneIf
  simp only [same]

private theorem start_balanced (balanced : self.Balanced) (labels : CallLabels) :
    (self.step (.start labels)).Balanced := by
  obtain ⟨calls, streams⟩ := balanced_iff.mp balanced
  refine balanced_iff.mpr ⟨fun other => ?_, fun other => ?_⟩
  · refine (openCalls_started other).trans ?_
    rw [calls other, unfinishedCalls, unfinishedCalls, step, countP_concat, UInt64.ofNat_add]
    congr 2
    apply oneIf_congr
    simp [InstrumentedCall.unfinished, CallInstrumentor.start, eq_comm]
  · refine (openStreams_started other).trans ?_
    rw [streams other, unfinishedStreams, unfinishedStreams, step, countP_concat, UInt64.ofNat_add]
    congr 2
    apply oneIf_congr
    simp only [InstrumentedCall.unfinished, InstrumentedCall.streaming, CallInstrumentor.start,
      Bool.not_false, Bool.true_and, Bool.and_eq_true, decide_eq_true_eq, @eq_comm _ labels other]

/-- The entry of a call after an operation counts as it did unless the operation finishes it. -/
private theorem call_balanced {number : Nat} {call : InstrumentedCall} {op : CallOp}
    (balanced : self.Balanced) (there : self.calls[number]? = some call)
    (keeps : call.unfinished = false ∨ op.status? = none) :
    Balanced ⟨(call.apply self.metrics op).2, self.calls.set number (call.apply self.metrics op).1⟩ := by
  obtain ⟨calls, streams⟩ := balanced_iff.mp balanced
  obtain ⟨started, same, kept⟩ := @InstrumentedCall.apply_keeps call self.metrics op keeps
  have alike : (call.apply self.metrics op).1.unfinished = call.unfinished := by
    rw [InstrumentedCall.unfinished, same, InstrumentedCall.unfinished]
  refine balanced_iff.mpr ⟨fun other => ?_, fun other => ?_⟩
  · have counted := @countP_replace _ (fun call => call.unfinished && call.startedWith = other) _ _ _
      there (call.apply self.metrics op).1
    rw [alike, started] at counted
    refine (kept.calls other).trans ((calls other).trans ?_)
    rw [unfinishedCalls, unfinishedCalls, Nat.add_right_cancel counted]
  · have counted := @countP_replace _
      (fun call => call.unfinished && call.startedWith = other && call.streaming) _ _ _ there
      (call.apply self.metrics op).1
    have stream : (call.apply self.metrics op).1.streaming = call.streaming := by
      rw [InstrumentedCall.streaming, started, InstrumentedCall.streaming]
    rw [alike, started, stream] at counted
    refine (kept.streams other).trans ((streams other).trans ?_)
    rw [unfinishedStreams, unfinishedStreams, Nat.add_right_cancel counted]

/-- With a call at its end there is one unfinished call less with its labels. -/
private theorem fewer_calls {number : Nat} {call next : InstrumentedCall}
    (there : self.calls[number]? = some call) (unfinished : call.unfinished = true)
    (ended : next.unfinished = false) (metrics : InMemoryMetricsRecorder) (labels : CallLabels) :
    self.unfinishedCalls labels = unfinishedCalls ⟨metrics, self.calls.set number next⟩ labels +
      oneIf (labels = call.startedWith) := by
  have counted := @countP_replace _ (fun call => call.unfinished && call.startedWith = labels) _ _ _
    there next
  simp only [unfinished, ended, Bool.true_and, Bool.false_and, decide_eq_true_eq, Bool.false_eq_true,
    @eq_comm _ call.startedWith] at counted
  exact counted.symm

/-- With a call at its end there is one stream less with its labels if it had one. -/
private theorem fewer_streams {number : Nat} {call next : InstrumentedCall}
    (there : self.calls[number]? = some call) (unfinished : call.unfinished = true)
    (ended : next.unfinished = false) (metrics : InMemoryMetricsRecorder) (labels : CallLabels) :
    self.unfinishedStreams labels = unfinishedStreams ⟨metrics, self.calls.set number next⟩ labels +
      oneIf (labels = call.startedWith ∧ call.streaming = true) := by
  have counted := @countP_replace _
    (fun call => call.unfinished && call.startedWith = labels && call.streaming) _ _ _ there next
  simp only [unfinished, ended, Bool.true_and, Bool.false_and, decide_eq_true_eq, Bool.false_eq_true,
    Bool.and_eq_true, @eq_comm _ call.startedWith] at counted
  exact counted.symm

/-- Behind an operation that finishes a call, the numbers of the calls agree; those of the streams
do unless the call has a stream that is closed under other labels. -/
private theorem finish_balanced {number : Nat} {call : InstrumentedCall} {op : CallOp} {status : Code}
    (faithful : self.Faithful) (balanced : self.Balanced) (there : self.calls[number]? = some call)
    (unfinished : call.unfinished = true) (finishes : op.status? = some status) :
    Balanced ⟨(call.apply self.metrics op).2, self.calls.set number (call.apply self.metrics op).1⟩ ↔
      (call.streaming = true → status = call.startedWith.status) := by
  obtain ⟨calls, streams⟩ := balanced_iff.mp balanced
  obtain ⟨started, ended, elapsed, moved⟩ :=
    @InstrumentedCall.apply_finishes call self.metrics op status unfinished finishes
  have labelled := faithful call (List.mem_of_getElem? there) unfinished
  have going : call.instrumentor.finished = false := by
    simpa [InstrumentedCall.unfinished] using unfinished
  have callsMove (other : CallLabels) := @openCalls_finished self.metrics call.instrumentor status elapsed
    going other
  have streamsMove (other : CallLabels) := @openStreams_finished self.metrics call.instrumentor status
    elapsed going other
  rw [labelled, ← moved] at callsMove streamsMove
  have callsLess := fewer_calls there unfinished ended (call.apply self.metrics op).2
  have streamsLess := fewer_streams there unfinished ended (call.apply self.metrics op).2
  rw [balanced_iff]
  constructor
  · rintro ⟨_, balanced'⟩ streaming
    apply Classical.byContradiction
    intro different
    have here := streamsMove call.startedWith
    have elsewhere : call.startedWith ≠ { call.startedWith with status } := fun same =>
      different (congrArg CallLabels.status same).symm
    rw [streams, balanced', streamsLess, oneIf, oneIf, if_pos ⟨rfl, streaming⟩,
      if_neg fun both => elsewhere both.1, UInt64.ofNat_add] at here
    grind
  · intro matching
    refine ⟨fun other => ofNat_cancel (calls other) (callsMove other) (callsLess other),
      fun other => ofNat_cancel (streams other) (streamsMove other) ?_⟩
    rw [streamsLess other]
    congr 1
    apply oneIf_congr
    unfold InstrumentedCall.streaming
    by_cases streaming : call.streaming = true
    · rw [matching streaming]
      simp
    · simp_all [InstrumentedCall.streaming]

/-- Finishing a call leaves the labels of the others, and of what is unfinished, as they were. -/
private theorem step_faithful (faithful : self.Faithful) (op : MetricOp) : (self.step op).Faithful := by
  cases op with
  | start labels =>
    intro call member unfinished
    rcases List.mem_append.mp member with before | last
    · exact faithful call before unfinished
    · rw [List.mem_singleton.mp last]
  | call number op =>
    unfold step
    dsimp only
    split
    · exact faithful
    · rename_i call there
      split
      · exact faithful
      · intro other member unfinished
        rcases List.mem_or_eq_of_mem_set member with before | here
        · exact faithful other before unfinished
        · rw [here] at unfinished ⊢
          by_cases keeps : call.unfinished = false ∨ op.status? = none
          · obtain ⟨started, same, _⟩ := @InstrumentedCall.apply_keeps call self.metrics op keeps
            rw [InstrumentedCall.unfinished, same] at unfinished
            rw [started, same]
            exact faithful call (List.mem_of_getElem? there) unfinished
          · obtain ⟨going, finishes⟩ := not_or.mp keeps
            obtain ⟨status, finishes⟩ := Option.ne_none_iff_exists'.mp finishes
            obtain ⟨_, ended, _⟩ := @InstrumentedCall.apply_finishes call self.metrics op status
              (by simpa using going) finishes
            rw [ended] at unfinished
            cases unfinished

/-- An operation keeps the balance exactly if it matches the labels that its call was started
with. -/
private theorem step_balanced (faithful : self.Faithful) (balanced : self.Balanced) (op : MetricOp) :
    (self.step op).Balanced ↔ self.Matching op := by
  cases op with
  | start labels => exact ⟨fun _ => trivial, fun _ => start_balanced balanced labels⟩
  | call number op =>
    unfold step Matching
    dsimp only
    split
    · rename_i absent
      refine ⟨fun _ call _ there => ?_, fun _ => balanced⟩
      rw [absent] at there
      cases there
    · rename_i call there
      split
      · rename_i dropped
        refine ⟨fun _ call' _ there' present => ?_, fun _ => balanced⟩
        rw [there] at there'
        cases there'
        rw [dropped] at present
        cases present
      · rename_i present
        rw [Bool.not_eq_true] at present
        by_cases keeps : call.unfinished = false ∨ op.status? = none
        · refine ⟨fun _ call' status there' _ going _ finishes => ?_,
            fun _ => call_balanced balanced there keeps⟩
          rw [there] at there'
          cases there'
          rcases keeps with ended | stays
          · rw [going] at ended
            cases ended
          · rw [stays] at finishes
            cases finishes
        · obtain ⟨going, finishes⟩ := not_or.mp keeps
          rw [Bool.not_eq_false] at going
          obtain ⟨status, finishes⟩ := Option.ne_none_iff_exists'.mp finishes
          refine (finish_balanced faithful balanced there going finishes).trans ?_
          refine ⟨fun matching call' status' there' _ _ streaming finishes' => ?_,
            fun matching streaming => matching call status there present going streaming finishes⟩
          rw [there] at there'
          cases there'
          rw [finishes] at finishes'
          cases finishes'
          exact matching streaming

/-- On the way through any operations an unfinished call keeps the labels it was started with. -/
private theorem run_faithful (faithful : self.Faithful) (ops : List MetricOp) :
    (self.run ops).Faithful := by
  induction ops generalizing self with
  | nil => exact faithful
  | cons op ops hypothesis => exact hypothesis (step_faithful faithful op)

/-- Operations that match as they come keep the balance. -/
private theorem run_balanced (faithful : self.Faithful) (balanced : self.Balanced)
    {ops : List MetricOp}
    (matching : ∀ front op back, ops = front ++ op :: back → (self.run front).Matching op) :
    (self.run ops).Balanced := by
  induction ops generalizing self with
  | nil => exact balanced
  | cons op ops hypothesis =>
    apply @hypothesis (self.step op) (step_faithful faithful op)
      ((step_balanced faithful balanced op).mpr (matching [] op ops rfl))
    intro front next back split
    exact matching (op :: front) next back (by simp [split])

private theorem run_snoc (ops : List MetricOp) (op : MetricOp) :
    self.run (ops ++ [op]) = (self.run ops).step op := by
  rw [run, List.foldl_append]
  rfl

private theorem empty_faithful : Faithful {} := fun _ member => by cases member

private theorem empty_balanced : Balanced {} := by
  constructor
  · intro labels
    simp [unfinishedCalls]
  · intro labels
    simp [unfinishedStreams]

/-- In every state on the way through a run of operations, whatever calls they are about and in
whatever order, what was recorded as started and not as ended is what is unfinished, if and only if
every operation that finishes a streaming call does so with the status it was labelled with at its
start. -/
theorem conserved_iff (ops : List MetricOp) :
    (∀ front back, ops = front ++ back → (run {} front).Balanced) ↔
      ∀ front op back, ops = front ++ op :: back → (run {} front).Matching op := by
  constructor
  · intro balanced front op back split
    have behind := balanced (front ++ [op]) back (by simp [split])
    rw [run_snoc] at behind
    exact (step_balanced (run_faithful empty_faithful front) (balanced front (op :: back) split) op).mp
      behind
  · intro matching front back split
    apply run_balanced empty_faithful empty_balanced
    intro before op after here
    exact matching before op (after ++ back) (by simp [split, here])

/-- The labels of a stream whose status is only known at its end. -/
private def streamLabels : CallLabels := ⟨"ex.Svc", "Watch", .ok, .serverStreaming⟩

/-- A streaming call that ends with an error is closed under labels it was not started with. -/
theorem not_conserved : ¬ ∀ ops : List MetricOp, (run {} ops).Balanced := by
  intro all
  have balance := (all [.start streamLabels, .call 0 (.finishWithStatus .notFound 0)]).streams streamLabels
  revert balance
  decide

end Instrumented

end TptProto.Grpc
