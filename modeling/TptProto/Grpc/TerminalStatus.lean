import TptProto.Grpc.Deframe
import TptProto.Grpc.Client

/-! When the status that a response carries is what a call ends with. -/

namespace TptProto.Grpc

open TptProto.Core TptProto.Foundation

/-- The number that a header block gives under `grpc-status`. -/
def statusOf (headers : HeaderMap) : Option Int :=
  ((headers.get "grpc-status").bind toStr).bind (Decimal.parseInt (2 ^ 31))

/-- The response carries this failure, in its trailers or, without a body, in its headers. -/
def Carries (response : Response) (c : Int) : Prop :=
  c ≠ 0 ∧ ((∃ trailers, response.trailers = some trailers ∧ statusOf trailers = some c) ∨
    response.chunks.flatten = [] ∧ statusOf response.headers = some c)

/-- No block of the response has a status. -/
def NoStatus (response : Response) : Prop :=
  response.headers.get "grpc-status" = none ∧
    ∀ trailers, response.trailers = some trailers → trailers.get "grpc-status" = none

/-- The call fails with this code; a stream does so with its last item. -/
def FailsWith (code : Code) : Reply → Prop
  | .single (.err status) | .stream (.err status) => status.code = code
  | .stream (.ok (items, _)) => ∃ status, items.getLast? = some (.error status) ∧ status.code = code
  | _ => False

def Succeeds : Reply → Prop
  | .single (.ok _) => True
  | .stream (.ok (items, _)) => ∀ item ∈ items, ∃ raw, item = .ok raw
  | _ => False

/-- A reply that does not lose the status of the response. -/
structure KeepsStatus (response : Response) (reply : Reply) : Prop where
  carried : ∀ c, Carries response c → FailsWith (Code.fromI32 c) reply
  absent : NoStatus response → ¬ Succeeds reply

/-- Received keys are keys of the headers. -/
private theorem absent_of_received (base64 : Base64) {key : String} {headers : List (String × String)}
    {metadata received : Metadata} {reserved : Bool}
    (parsed : headers.foldlM (Metadata.receive base64 reserved) metadata = .ok received)
    (start : ∀ entry ∈ metadata.map, entry.1 ≠ key) (missing : ∀ header ∈ headers, header.1 ≠ key) :
    ∀ entry ∈ received.map, entry.1 ≠ key := by
  induction headers generalizing metadata with
  | nil =>
    cases parsed
    exact start
  | cons header rest inductionHypothesis =>
    rw [List.foldlM_cons] at parsed
    cases one : Metadata.receive base64 reserved metadata header with
    | error e =>
      rw [one] at parsed
      cases parsed
    | ok next =>
      rw [one] at parsed
      apply inductionHypothesis parsed
      · obtain ⟨_, value, _, rfl⟩ := (Metadata.receive_eq_ok base64).mp one
        intro entry member
        rcases SortedMap.mem_upsert_key member with same | old
        · rw [same]
          exact missing header List.mem_cons_self
        · exact start entry old
      · exact fun other member => missing other (List.mem_cons_of_mem _ member)

/-- Trailers without a status are read as an unknown failure. -/
private theorem trailersStatus_of_none (base64 : Base64) {trailers : HeaderMap}
    (missing : trailers.get "grpc-status" = none) :
    (GrpcResponseBody.trailersStatus base64 trailers).code = .unknown := by
  have absent : SortedMap.get? (unwrapOrDefault {} (Metadata.fromTrailers base64
      (headersToPairs trailers) usizeMax)).map "grpc-status" = none := by
    cases parsed : Metadata.fromTrailers base64 (headersToPairs trailers) usizeMax with
    | error e => rfl
    | ok metadata =>
      apply SortedMap.get?_eq_none_iff.mpr
      simp only [Metadata.fromTrailers, Metadata.parse] at parsed
      cases folded : (headersToPairs trailers).foldlM (Metadata.receive base64 true) {} with
      | error e =>
        rw [folded] at parsed
        cases parsed
      | ok received =>
        rw [folded] at parsed
        simp only [bind, Except.bind] at parsed
        split at parsed
        · cases parsed
        · cases parsed
          apply absent_of_received base64 folded
          · intro entry member
            cases member
          · intro header member
            obtain ⟨original, inside, shown⟩ := List.mem_filterMap.mp member
            obtain ⟨text, _, rfl⟩ := Option.map_eq_some_iff.mp shown
            exact SortedMap.get?_eq_none_iff.mp missing original inside
  simp only [GrpcResponseBody.trailersStatus, Status.fromTrailers, Status.trailersCode,
    Metadata.getText, absent, Option.bind_none]

/-- The call expects one message and the body has none. -/
def Missing (kind : MethodKind) (messages : List (List UInt8)) : Prop :=
  kind.serverStreaming? = false ∧ messages = []

variable (codec : GzipCodec) (base64 : Base64)

section Items

variable {messages : List (List UInt8)} {metadata : Metadata} {code : Code}

private theorem failsWith_items (ending : Option Status) :
    FailsWith code (.stream (.ok (itemsOf (messages, ending), metadata))) ↔
      ∃ status, ending = some status ∧ status.code = code := by
  cases ending with
  | some status => simp [FailsWith, itemsOf]
  | none =>
    simp only [FailsWith, itemsOf, Option.toList_none, List.map_nil, List.append_nil,
      List.getLast?_map]
    cases messages.getLast? <;> simp

private theorem succeeds_items (ending : Option Status) :
    Succeeds (.stream (.ok (itemsOf (messages, ending), metadata))) ↔ ending = none := by
  cases ending with
  | some status => simp [Succeeds, itemsOf]
  | none => simp [Succeeds, itemsOf]

end Items

namespace Client

variable (endpoint : Endpoint) (kind : MethodKind) (response : Response)

/-- The messages of the body, and the error that the body itself ends with. -/
def bodyRead : List (List UInt8) × Option Status :=
  (deframing codec GrpcResponseBody.wording (encodingFromHeaders response.headers)
    endpoint.maxMessageSize).parse partialFrame response.chunks.flatten

/-- How the call ends: by the body, by the trailers, or for want of a message. -/
def ending : Option Status :=
  (bodyRead codec endpoint response).2.or
    (GrpcResponseBody.terminalStatus base64 response.trailers)

private theorem bodyItems_eq : bodyItems codec base64 endpoint response =
    ((bodyRead codec endpoint response).1, ending codec base64 endpoint response) := by
  rw [bodyItems, GrpcResponseBody.messages_eq]
  obtain ⟨messages, endings⟩ := Framing.parse_finish (deframing codec GrpcResponseBody.wording
    (encodingFromHeaders response.headers) endpoint.maxMessageSize) partialFrame
    (GrpcResponseBody.finish base64 response.trailers) response.chunks.flatten
  apply Prod.ext
  · exact messages
  · rcases endings with ⟨status, here, there⟩ | ⟨left, here, there⟩
    · rw [there, ending, bodyRead, here]
      rfl
    · rw [there, ending, bodyRead, here, GrpcResponseBody.finish]
      cases partialFrame left <;> rfl

/-- How a call fails with a code. -/
private theorem failsWith_call (code : Code) :
    FailsWith code (call codec base64 endpoint kind response) ↔
      (∃ status, ending codec base64 endpoint response = some status ∧ status.code = code) ∨
        ending codec base64 endpoint response = none ∧
          Missing kind (bodyRead codec endpoint response).1 ∧ code = .internal := by
  cases shape : kind.serverStreaming? with
  | true =>
    rw [call_stream codec base64 endpoint shape, bodyItems_eq, failsWith_items]
    simp [Missing, shape]
  | false =>
    obtain ⟨empty, reply⟩ := call_single codec base64 endpoint shape response
    rw [reply, bodyItems_eq]
    cases ending codec base64 endpoint response with
    | some status => simp [FailsWith]
    | none =>
      cases last : (bodyRead codec endpoint response).1.getLast? with
      | some raw =>
        have present : (bodyRead codec endpoint response).1 ≠ [] := by
          intro empty
          rw [empty] at last
          cases last
        simp [FailsWith, Missing, present, last]
      | none =>
        have absent := List.getLast?_eq_none_iff.mp last
        simp [FailsWith, Missing, absent, shape, eq_comm]

private theorem succeeds_call :
    Succeeds (call codec base64 endpoint kind response) ↔
      ending codec base64 endpoint response = none ∧
        ¬ Missing kind (bodyRead codec endpoint response).1 := by
  cases shape : kind.serverStreaming? with
  | true =>
    rw [call_stream codec base64 endpoint shape, bodyItems_eq, succeeds_items]
    simp [Missing, shape]
  | false =>
    obtain ⟨empty, reply⟩ := call_single codec base64 endpoint shape response
    rw [reply, bodyItems_eq]
    cases ending codec base64 endpoint response with
    | some status => simp [Succeeds]
    | none =>
      cases last : (bodyRead codec endpoint response).1.getLast? with
      | some raw =>
        have present : (bodyRead codec endpoint response).1 ≠ [] := by
          intro empty
          rw [empty] at last
          cases last
        simp [Succeeds, Missing, present, last]
      | none =>
        have absent := List.getLast?_eq_none_iff.mp last
        simp [Succeeds, Missing, absent, shape]

/-- After a body without errors, what the trailers say or their absence means. -/
def TrailersEnd (messages : List (List UInt8)) (code : Code) : Prop :=
  match response.trailers with
  | some trailers =>
    (GrpcResponseBody.trailersStatus base64 trailers).code = code ∨
      (GrpcResponseBody.trailersStatus base64 trailers).code = .ok ∧ Missing kind messages ∧
        code = .internal
  | none => Missing kind messages ∧ code = .internal

/-- The responses whose status the client reports. -/
structure Reports : Prop where
  carried : ∀ c, Carries response c →
    match (bodyRead codec endpoint response).2 with
    | some status => status.code = Code.fromI32 c
    | none => TrailersEnd base64 kind response (bodyRead codec endpoint response).1 (Code.fromI32 c)
  absent : NoStatus response → (bodyRead codec endpoint response).2 ≠ none ∨
    response.trailers ≠ none ∨ Missing kind (bodyRead codec endpoint response).1

private theorem fromI32_ne_ok {c : Int} (failure : c ≠ 0) : Code.fromI32 c ≠ .ok :=
  fun same => failure (Code.fromI32_eq_ok_iff.mp same)

private theorem failsWith_iff {code : Code} (failure : code ≠ .ok) :
    FailsWith code (call codec base64 endpoint kind response) ↔
      match (bodyRead codec endpoint response).2 with
      | some status => status.code = code
      | none => TrailersEnd base64 kind response (bodyRead codec endpoint response).1 code := by
  rw [failsWith_call, ending]
  cases (bodyRead codec endpoint response).2 with
  | some status => simp
  | none =>
    simp only [Option.or, GrpcResponseBody.terminalStatus, TrailersEnd]
    cases response.trailers with
    | none => simp
    | some trailers =>
      by_cases fine : (GrpcResponseBody.trailersStatus base64 trailers).code = .ok
      · simp [Status.isOk, fine, Ne.symm failure]
      · simp [Status.isOk, fine]

/-- The client keeps the status of exactly these responses. -/
theorem keepsStatus_iff :
    KeepsStatus response (call codec base64 endpoint kind response) ↔
      Reports codec base64 endpoint kind response := by
  have absent : NoStatus response →
      (Succeeds (call codec base64 endpoint kind response) ↔
        (bodyRead codec endpoint response).2 = none ∧ response.trailers = none ∧
          ¬ Missing kind (bodyRead codec endpoint response).1) := by
    intro without
    rw [succeeds_call, ending]
    cases (bodyRead codec endpoint response).2 with
    | some status => simp
    | none =>
      cases present : response.trailers with
      | none => simp [GrpcResponseBody.terminalStatus]
      | some trailers =>
        have unknown := trailersStatus_of_none base64 (without.2 trailers present)
        simp [GrpcResponseBody.terminalStatus, Status.isOk, unknown]
  constructor
  · intro keeps
    constructor
    · intro c carried
      apply (failsWith_iff codec base64 endpoint kind response (fromI32_ne_ok carried.1)).mp
      exact keeps.carried c carried
    · intro without
      have fails := keeps.absent without
      rw [absent without] at fails
      grind
  · intro reports
    constructor
    · intro c carried
      apply (failsWith_iff codec base64 endpoint kind response (fromI32_ne_ok carried.1)).mpr
      exact reports.carried c carried
    · intro without
      have fails := reports.absent without
      rw [absent without]
      grind

end Client

namespace H2Transport

variable (transport : H2Transport) (kind : MethodKind) (response : Response)

/-- The data exceed the maximum that the transport collects. -/
def Oversize : Prop := transport.maxMessageSize < response.chunks.flatten.length

instance : Decidable (transport.Oversize response) := inferInstanceAs (Decidable (_ < _))

/-- The first frame can be split off and decoded. -/
def FirstReadable : Prop :=
  ∃ raw later payload, splitGrpcFrames response.chunks.flatten = .ok (raw :: later) ∧
    transport.unframe codec raw = .ok payload

/-- The data are split into frames that all can be decoded. -/
def AllReadable : Prop :=
  ∃ frames, splitGrpcFrames response.chunks.flatten = .ok frames ∧
    ∀ raw ∈ frames, ∃ payload, transport.unframe codec raw = .ok payload

/-- The frames end in an error with this code, whatever the status is. -/
def BodyEnds (code : Code) : Prop :=
  (∃ status, splitGrpcFrames response.chunks.flatten = .err status ∧ status.code = code) ∨
    ∃ frames raw status, splitGrpcFrames response.chunks.flatten = .ok frames ∧
      frames.getLast? = some raw ∧ transport.unframe codec raw = .error status ∧ status.code = code

/-- Responses whose status the calls for one message report. -/
structure SingleReports : Prop where
  inTrailers : ∀ trailers c, response.trailers = some trailers → statusOf trailers = some c → c ≠ 0 →
    transport.Oversize response → Code.fromI32 c = .resourceExhausted
  inHeaders : response.chunks.flatten = [] → ∀ c, statusOf response.headers = some c → c ≠ 0 →
    match statusFromTrailers response.trailers with
    | some status => status.code = Code.fromI32 c
    | none => Code.fromI32 c = .internal
  absent : NoStatus response → transport.Oversize response ∨ ¬ transport.FirstReadable codec response

/-- Responses whose status the streaming calls report, though they never look at it. -/
structure StreamReports : Prop where
  carried : ∀ c, Carries response c →
    (transport.Oversize response → Code.fromI32 c = .resourceExhausted) ∧
      (¬ transport.Oversize response → transport.BodyEnds codec response (Code.fromI32 c))
  absent : NoStatus response → transport.Oversize response ∨ ¬ transport.AllReadable codec response

def Reports : Prop :=
  if kind.serverStreaming? then transport.StreamReports codec response
  else transport.SingleReports codec response

private theorem collect_of_oversize (large : transport.Oversize response) :
    collectBody transport.maxMessageSize [] response.chunks =
      .err (.new .resourceExhausted s!"response body exceeds {transport.maxMessageSize} bytes") := by
  rw [collectBody_eq _ _ _ (Nat.zero_le _), List.nil_append]
  exact if_pos large

private theorem collect_of_fits (fits : ¬ transport.Oversize response) :
    collectBody transport.maxMessageSize [] response.chunks = .ok response.chunks.flatten := by
  rw [collectBody_eq _ _ _ (Nat.zero_le _), List.nil_append]
  exact if_neg fits

private theorem statusFromTrailers_some {trailers : HeaderMap} {c : Int}
    (given : statusOf trailers = some c) (failure : c ≠ 0) :
    ∃ status, statusFromTrailers (some trailers) = some status ∧
      status.code = Code.fromI32 c := by
  refine ⟨.new (Code.fromI32 c) (((trailers.get "grpc-message").bind toStr).getD ""), ?_, rfl⟩
  show ((statusOf trailers).bind fun code => if code = 0 then none else
    some (Status.new (Code.fromI32 code) (((trailers.get "grpc-message").bind toStr).getD ""))) = _
  rw [given, Option.bind_some, if_neg failure]

private theorem statusFromTrailers_none (without : NoStatus response) :
    statusFromTrailers response.trailers = none := by
  cases present : response.trailers with
  | none => rfl
  | some trailers => simp [statusFromTrailers, without.2 trailers present]

private theorem splitGrpcFrames_nil : splitGrpcFrames [] = .ok [] := rfl

section Single

private theorem single_of_status {status : Status} (fits : ¬ transport.Oversize response)
    (given : statusFromTrailers response.trailers = some status) :
    transport.singleReply codec response = .err status := by
  simp only [singleReply, collect_of_fits transport response fits, Outcome.ok_bind, given]

private theorem single_ok_iff (fits : ¬ transport.Oversize response)
    (none : statusFromTrailers response.trailers = none) :
    (∃ result, transport.singleReply codec response = .ok result) ↔
      transport.FirstReadable codec response := by
  simp only [singleReply, collect_of_fits transport response fits, Outcome.ok_bind, none,
    Outcome.bind_eq_ok, FirstReadable, Outcome.ofOption_eq_ok]
  constructor
  · rintro ⟨result, frames, split, raw, first, reply⟩
    cases frames with
    | nil => cases first
    | cons raw' later =>
      cases first
      cases read : transport.unframe codec raw with
      | ok payload => exact ⟨raw, later, payload, split, read⟩
      | error status =>
        rw [read] at reply
        cases reply
  · rintro ⟨raw, later, payload, split, read⟩
    exact ⟨_, raw :: later, split, raw, rfl, by rw [read]⟩

private theorem single_of_empty (fits : ¬ transport.Oversize response)
    (none : statusFromTrailers response.trailers = none) (empty : response.chunks.flatten = []) :
    transport.singleReply codec response = .err (.new .internal "empty response body") := by
  simp only [singleReply, collect_of_fits transport response fits, Outcome.ok_bind, none, empty,
    splitGrpcFrames_nil]
  rfl

private theorem succeeds_single {result : Outcome Status (List UInt8 × Metadata)} :
    Succeeds (.single result) ↔ ∃ value, result = .ok value := by
  cases result <;> simp [Succeeds]

private theorem singleKeeps_iff :
    KeepsStatus response (.single (transport.singleReply codec response)) ↔
      transport.SingleReports codec response := by
  by_cases large : transport.Oversize response
  · have reply : transport.singleReply codec response =
        .err (.new .resourceExhausted
          s!"response body exceeds {transport.maxMessageSize} bytes") := by
      simp only [singleReply, collect_of_oversize transport response large, Outcome.err_bind]
    have body : response.chunks.flatten ≠ [] := by
      intro empty
      rw [Oversize, empty] at large
      exact Nat.not_lt_zero _ large
    rw [reply]
    constructor
    · intro keeps
      refine ⟨fun trailers c present given failure _ => ?_, fun empty => (body empty).elim,
        fun _ => .inl large⟩
      exact (keeps.carried c ⟨failure, .inl ⟨trailers, present, given⟩⟩).symm
    · intro reports
      refine ⟨?_, fun _ succeeds => succeeds⟩
      rintro c ⟨failure, ⟨trailers, present, given⟩ | ⟨empty, _⟩⟩
      · exact (reports.inTrailers trailers c present given failure large).symm
      · exact (body empty).elim
  · constructor
    · intro keeps
      refine ⟨fun _ _ _ _ _ oversize => (large oversize).elim, ?_, ?_⟩
      · intro empty c given failure
        have fails := keeps.carried c ⟨failure, .inr ⟨empty, given⟩⟩
        cases read : statusFromTrailers response.trailers with
        | some status =>
          rw [single_of_status codec transport response large read] at fails
          exact fails
        | none =>
          rw [single_of_empty codec transport response large read empty] at fails
          exact fails.symm
      · intro without
        refine .inr fun readable => keeps.absent without (succeeds_single.mpr ?_)
        exact (single_ok_iff codec transport response large
          (statusFromTrailers_none response without)).mpr readable
    · intro reports
      constructor
      · rintro c ⟨failure, ⟨trailers, present, given⟩ | ⟨empty, given⟩⟩
        · obtain ⟨status, read, code⟩ := statusFromTrailers_some given failure
          rw [← present] at read
          rw [single_of_status codec transport response large read]
          exact code
        · have here := reports.inHeaders empty c given failure
          cases read : statusFromTrailers response.trailers with
          | some status =>
            rw [read] at here
            rw [single_of_status codec transport response large read]
            exact here
          | none =>
            rw [read] at here
            rw [single_of_empty codec transport response large read empty]
            exact here.symm
      · intro without succeeds
        have readable := (single_ok_iff codec transport response large
          (statusFromTrailers_none response without)).mp (succeeds_single.mp succeeds)
        rcases reports.absent without with oversize | unreadable
        · exact large oversize
        · exact unreadable readable

end Single

section Stream

private theorem stream_fails_iff (code : Code) (fits : ¬ transport.Oversize response) :
    FailsWith code (.stream (transport.streamReply codec response)) ↔
      transport.BodyEnds codec response code := by
  simp only [streamReply, collect_of_fits transport response fits, Outcome.ok_bind, BodyEnds]
  cases splitGrpcFrames response.chunks.flatten with
  | ok frames =>
    simp only [Outcome.ok_bind, FailsWith, List.getLast?_map, Option.map_eq_some_iff]
    grind
  | err status => simp [FailsWith]
  | panic | outOfFuel => simp [FailsWith]

private theorem stream_succeeds_iff (fits : ¬ transport.Oversize response) :
    Succeeds (.stream (transport.streamReply codec response)) ↔
      transport.AllReadable codec response := by
  simp only [streamReply, collect_of_fits transport response fits, Outcome.ok_bind, AllReadable]
  cases splitGrpcFrames response.chunks.flatten with
  | ok frames => simp [Succeeds]
  | err | panic | outOfFuel => simp [Succeeds]

private theorem streamKeeps_iff :
    KeepsStatus response (.stream (transport.streamReply codec response)) ↔
      transport.StreamReports codec response := by
  by_cases large : transport.Oversize response
  · have reply : transport.streamReply codec response =
        .err (.new .resourceExhausted
          s!"response body exceeds {transport.maxMessageSize} bytes") := by
      simp only [streamReply, collect_of_oversize transport response large, Outcome.err_bind]
    rw [reply]
    constructor
    · intro keeps
      exact ⟨fun c carried => ⟨fun _ => (keeps.carried c carried).symm,
        fun fits => (fits large).elim⟩, fun _ => .inl large⟩
    · intro reports
      exact ⟨fun c carried => ((reports.carried c carried).1 large).symm, fun _ succeeds => succeeds⟩
  · constructor
    · intro keeps
      constructor
      · intro c carried
        refine ⟨fun oversize => (large oversize).elim, fun _ => ?_⟩
        exact (stream_fails_iff codec transport response _ large).mp (keeps.carried c carried)
      · intro without
        refine .inr fun readable => keeps.absent without ?_
        exact (stream_succeeds_iff codec transport response large).mpr readable
    · intro reports
      constructor
      · intro c carried
        apply (stream_fails_iff codec transport response _ large).mpr
        exact (reports.carried c carried).2 large
      · intro without succeeds
        have readable := (stream_succeeds_iff codec transport response large).mp succeeds
        rcases reports.absent without with oversize | unreadable
        · exact large oversize
        · exact unreadable readable

end Stream

/-- The transport keeps the status of exactly these responses. -/
theorem keepsStatus_iff :
    KeepsStatus response (transport.call codec kind response) ↔
      transport.Reports codec kind response := by
  cases kind with
  | unary | clientStreaming => exact singleKeeps_iff codec transport response
  | serverStreaming | bidiStreaming => exact streamKeeps_iff codec transport response

end H2Transport

/-- One message, and permission denied in the trailers. -/
def deniedLate : Response where
  headers := [("content-type", asBytes "application/grpc")]
  chunks := [[0, 0, 0, 0, 1, 42]]
  trailers := some [("grpc-status", asBytes "7")]

/-- Permission denied in the headers of a response without a body. -/
def deniedEarly : Response where
  headers := [("content-type", asBytes "application/grpc"), ("grpc-status", asBytes "7")]
  chunks := []
  trailers := none

end TptProto.Grpc
