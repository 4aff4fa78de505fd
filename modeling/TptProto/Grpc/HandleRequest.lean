import TptProto.Grpc.Context
import TptProto.Grpc.Client
import TptProto.Foundation.Trace

/-! What travels in a call: the request that a client writes, and the response that the
server writes for the messages of a handler. -/

namespace TptProto.Grpc

open TptProto.Core TptProto.Foundation

/-- Metadata of a request as header lines. Public insertion admits validated keys only. -/
structure RequestMetadata where
  headers : HeaderMap
  authored : ∀ header ∈ headers, Metadata.validateKey header.1 false = .ok ()

structure ServerConfig where
  maxMessageSize : Nat := 4 * 1024 * 1024
  maxMetadataSize : Nat := 8 * 1024
  responseCompression : Compression := .identity
  deriving DecidableEq, Repr

/-- The encoding is announced unless it is the identity. -/
def encodingHeader (compression : Compression) : HeaderMap :=
  if compression = .identity then [] else [("grpc-encoding", asBytes compression.asHeader)]

/-- `send_request_headers` of the client. -/
def Client.requestHeaders (compression : Compression) (metadata : RequestMetadata) : HeaderMap :=
  [("content-type", asBytes "application/grpc"), ("te", asBytes "trailers")] ++
    encodingHeader compression ++ metadata.headers

/-- `build_request` of the debugging transport, without a timeout. -/
def H2Transport.requestHeaders (transport : H2Transport) (metadata : RequestMetadata) : HeaderMap :=
  [("content-type", asBytes "application/grpc"), ("te", asBytes "trailers"),
    ("user-agent", asBytes "tpt-proto-grpc/0.1")] ++ metadata.headers ++
    encodingHeader transport.compression

/-- The headers of every response. -/
def sendHeaders : HeaderMap := [("content-type", asBytes "application/grpc")]

variable (codec : GzipCodec)

/-- The frame of one response message. -/
def sendMessage (config : ServerConfig) (raw : List UInt8) : Except Status (List UInt8) :=
  match encodeMessage codec raw config.responseCompression config.maxMessageSize with
  | .ok framed => .ok framed
  | .error e => .error (.new .internal e)

/-- The trailers of `Status::ok()`. -/
def okTrailers : HeaderMap := [("grpc-status", asBytes "0")]

/-- The frames of the messages of a handler, in the order in which they are sent. -/
def sendMessages (config : ServerConfig) : List (List UInt8) → Except Status (List (List UInt8))
  | [] => .ok []
  | raw :: rest => do
    let frame ← sendMessage codec config raw
    let frames ← sendMessages config rest
    .ok (frame :: frames)

/-- A response to a handler that succeeded, as the network may cut its data. -/
structure Answers (config : ServerConfig) (messages : List (List UInt8)) (response : Response) :
    Prop where
  headers : response.headers = sendHeaders
  trailers : response.trailers = some okTrailers
  data : ∃ frames, sendMessages codec config messages = .ok frames ∧
    response.chunks.flatten = frames.flatten

end TptProto.Grpc

/-! The server's task for one request, as a step relation between its waiting points. -/

namespace TptProto.Grpc

open TptProto.Core TptProto.Foundation

/-- What a call ends in if nothing goes wrong: one message, or a stream, and the status. -/
structure HandlerOutput where
  message : Option (List UInt8)
  stream : Bool
  status : Status
  deriving DecidableEq, Repr

/-- The text after the last `/`. -/
def methodName (path : String) : Except Status String :=
  match (path.toList.reverse.span (· ≠ '/')) with
  | (_, []) => .error (.new .internal "malformed request path")
  | (name, _ :: _) => .ok (String.ofList name.reverse)

/-- `request` is what the reader makes of the request body. The handler answers with the bytes of
its message, or, for the streaming responses, only with the fact that the stream exists. -/
def dispatch (kind : MethodKind) (path : String) (request : Except Status (Option (List UInt8)))
    (answer : Except Status (List UInt8)) : Except Status HandlerOutput := do
  let _method ← methodName path
  let missing : HandlerOutput := ⟨none, false, .new .invalidArgument "missing request message"⟩
  match kind with
  | .unary =>
    match ← request with
    | none => .ok missing
    | some _ =>
      let raw ← answer
      .ok ⟨some raw, false, .new .ok ""⟩
  | .serverStreaming =>
    match ← request with
    | none => .ok missing
    | some _ =>
      let _stream ← answer
      .ok ⟨none, true, .new .ok ""⟩
  | .clientStreaming =>
    let raw ← answer
    .ok ⟨some raw, false, .new .ok ""⟩
  | .bidiStreaming =>
    let _stream ← answer
    .ok ⟨none, true, .new .ok ""⟩

/-- What is fixed once the headers of a request are read. `policy` is the verdict of the security
policy, if there is one. -/
structure Call where
  path : String
  kind : MethodKind
  config : ServerConfig
  ctx : RpcContext
  policy : Option (Except Status String)
  handled : Bool

/-- The waiting points of the task, with what it still has to send. -/
inductive Phase where
  | received
  | waiting
  | opening (result : Except Status HandlerOutput)
  | sending (raw : List UInt8) (stream : Bool) (status : Status)
  | streaming (status : Status)
  | closing (status : Status)
  | done

inductive Branch where
  | work
  | shutdown
  | deadline
  deriving DecidableEq, Repr

inductive Event where
  | admitted
  | worked (request : Except Status (Option (List UInt8))) (answer : Except Status (List UInt8))
  | expired
  | shutdown
  | cancelled
  | selected (branch : Branch)
  | opened
  | openFailed (text : String)
  | messageSent (raw : List UInt8)
  | sendFailed
  | item (raw : List UInt8)
  | itemFailed (status : Status)
  | streamEnded
  | statusSent (status : Status)
  | statusFailed

/-- `cancelled` is the token in the context of the call, which the handler shares. -/
structure CallState where
  phase : Phase := .received
  result : Option (Except Status HandlerOutput) := none
  expired : Bool := false
  shutdown : Bool := false
  cancelled : Bool

namespace Call

variable (call : Call)

def start : CallState := { cancelled := call.ctx.cancelled }

/-- The policy is applied first; then the method must have a handler. -/
def admission : Phase :=
  match call.policy with
  | some (.error status) => .opening (.error status)
  | _ =>
    if call.handled then .waiting
    else .opening (.error (.new .unimplemented s!"no method `{call.path}`"))

end Call

def afterMessage (stream : Bool) (status : Status) : Phase :=
  if stream then .streaming status else .closing status

def afterOpening : Except Status HandlerOutput → Phase
  | .error status => .closing status
  | .ok output =>
    match output.message with
    | some raw => .sending raw output.stream output.status
    | none => afterMessage output.stream output.status

def shuttingDown : Status := .new .unavailable "server shutting down"

def deadlineExceeded : Status := .new .deadlineExceeded "deadline exceeded"

/-- One step of the task, or of what it waits for. When several branches of the selection are
ready, any of them may be taken. A message that cannot be sent ends the task without a status. -/
inductive Step (codec : GzipCodec) (call : Call) : CallState → Event → CallState → Prop where
  | admitted {s : CallState} (here : s.phase = .received) :
      Step codec call s .admitted { s with phase := call.admission }
  | worked {s : CallState} {request : Except Status (Option (List UInt8))}
      {answer : Except Status (List UInt8)} (here : s.phase = .waiting)
      (pending : s.result = none) :
      Step codec call s (.worked request answer)
        { s with result := some (dispatch call.kind call.path request answer) }
  | expired {s : CallState} (due : call.ctx.deadline.isSome = true) (once : s.expired = false) :
      Step codec call s .expired { s with expired := true }
  | shutdown {s : CallState} : Step codec call s .shutdown { s with shutdown := true }
  | cancelled {s : CallState} : Step codec call s .cancelled { s with cancelled := true }
  | workSelected {s : CallState} {result : Except Status HandlerOutput}
      (here : s.phase = .waiting) (ready : s.result = some result) :
      Step codec call s (.selected .work) { s with phase := .opening result }
  | shutdownSelected {s : CallState} (here : s.phase = .waiting) (ready : s.shutdown = true) :
      Step codec call s (.selected .shutdown) { s with phase := .opening (.error shuttingDown) }
  | deadlineSelected {s : CallState} (here : s.phase = .waiting) (ready : s.expired = true) :
      Step codec call s (.selected .deadline) { s with phase := .opening (.error deadlineExceeded) }
  | opened {s : CallState} {result : Except Status HandlerOutput}
      (here : s.phase = .opening result) :
      Step codec call s .opened { s with phase := afterOpening result }
  | openFailed {s : CallState} {result : Except Status HandlerOutput} {text : String}
      (here : s.phase = .opening result) :
      Step codec call s (.openFailed text)
        { s with phase := .closing (.new .internal s!"send_response: {text}") }
  | messageSent {s : CallState} {raw frame : List UInt8} {stream : Bool} {status : Status}
      (here : s.phase = .sending raw stream status)
      (framed : sendMessage codec call.config raw = .ok frame) :
      Step codec call s (.messageSent raw) { s with phase := afterMessage stream status }
  | sendFailed {s : CallState} {raw : List UInt8} {stream : Bool} {status : Status}
      (here : s.phase = .sending raw stream status) :
      Step codec call s .sendFailed { s with phase := .done }
  | item {s : CallState} {raw : List UInt8} {status : Status}
      (here : s.phase = .streaming status) :
      Step codec call s (.item raw) { s with phase := .sending raw true status }
  | itemFailed {s : CallState} {failed status : Status} (here : s.phase = .streaming status) :
      Step codec call s (.itemFailed failed) { s with phase := .closing failed }
  | streamEnded {s : CallState} {status : Status} (here : s.phase = .streaming status) :
      Step codec call s .streamEnded { s with phase := .closing status }
  | statusSent {s : CallState} {status : Status} (here : s.phase = .closing status) :
      Step codec call s (.statusSent status) { s with phase := .done }
  | statusFailed {s : CallState} {status : Status} (here : s.phase = .closing status) :
      Step codec call s .statusFailed { s with phase := .done }

/-- The result of the call is not chosen yet. -/
def Phase.Undecided : Phase → Prop
  | .received | .waiting => True
  | _ => False

theorem decided_afterMessage (stream : Bool) (status : Status) :
    ¬ (afterMessage stream status).Undecided := by
  cases stream <;> exact id

theorem decided_afterOpening (result : Except Status HandlerOutput) :
    ¬ (afterOpening result).Undecided := by
  cases result with
  | error status => exact id
  | ok output =>
    obtain ⟨message, stream, status⟩ := output
    cases message with
    | none => exact decided_afterMessage stream status
    | some raw => exact id

/-- An event has one outcome. -/
theorem Step.unique {codec : GzipCodec} {call : Call} (s : CallState) (event : Event)
    (first second : CallState) (one : Step codec call s event first)
    (other : Step codec call s event second) : first = second := by
  cases one <;> cases other <;> simp_all

end TptProto.Grpc
