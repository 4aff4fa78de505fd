import TptProto.Foundation.Outcome
import TptProto.Grpc.Deframe
import TptProto.Foundation.Loop

/-! The HTTP/2 client: what its four calls make of a response. -/

namespace TptProto.Grpc

open TptProto.Core TptProto.Foundation

inductive MethodKind where
  | unary
  | serverStreaming
  | clientStreaming
  | bidiStreaming
  deriving DecidableEq, Repr

namespace MethodKind

def clientStreaming? (kind : MethodKind) : Bool :=
  kind = .clientStreaming || kind = .bidiStreaming

def serverStreaming? (kind : MethodKind) : Bool :=
  kind = .serverStreaming || kind = .bidiStreaming

end MethodKind

/-- A response as HTTP/2 delivers it: headers, data, and trailers if the server sent any. -/
structure Response where
  headers : HeaderMap
  chunks : List (List UInt8)
  trailers : Option HeaderMap
  deriving DecidableEq, Repr

abbrev Item := Except Status (List UInt8)

/-- What a caller gets: one message, or the items of a stream, with the metadata. -/
inductive Reply where
  | single (result : Outcome Status (List UInt8 × Metadata))
  | stream (result : Outcome Status (List Item × Metadata))

structure RetryPolicy where
  maxRetries : Nat := 0
  retryable : List Code := [.unavailable, .resourceExhausted]
  deriving DecidableEq, Repr

structure Endpoint where
  compression : Compression := .identity
  maxMessageSize : Nat := 4 * 1024 * 1024
  retryPolicy : RetryPolicy := {}
  deriving DecidableEq, Repr

/-- The items of a reader that stops at its first error. -/
def itemsOf (read : List (List UInt8) × Option Status) : List Item :=
  read.1.map .ok ++ read.2.toList.map .error

def encodingFromHeaders (headers : HeaderMap) : Compression :=
  match (headers.get "grpc-encoding").bind toStr with
  | some value => Compression.fromHeader value
  | none => .identity

def hiddenResponseHeader (name : String) : Bool :=
  startsWith name ":" || name = "content-type" || name = "te" || name = "grpc-encoding" ||
    name = "grpc-status" || name = "grpc-message"

variable (codec : GzipCodec) (base64 : Base64)

def metadataFromResponse (headers : HeaderMap) (max : Nat) : Metadata :=
  unwrapOrDefault {} (Metadata.fromHeaders base64
    (headersToPairs (headers.filter fun header => !hiddenResponseHeader header.1)) max)

/-- The last message of the body. The status of a body that ends well is `Status::ok()`. -/
def readUnary (encoding : Compression) (max : Nat) (response : Response) :
    Outcome Status (Option (List UInt8) × Status) :=
  match lastMessage (GrpcResponseBody.messages codec base64 encoding max response.trailers
    response.chunks) with
  | .ok message => .ok (message, .new .ok "")
  | .error status => .err status

namespace Client

variable (endpoint : Endpoint)

/-- What the unary and client-streaming calls do with a response. -/
def singleReply (empty : String) (response : Response) : Outcome Status (List UInt8 × Metadata) := do
  let encoding := encodingFromHeaders response.headers
  let metadata := metadataFromResponse base64 response.headers endpoint.maxMessageSize
  let (message, status) ← readUnary codec base64 encoding endpoint.maxMessageSize response
  if !status.isOk then .err status
  else do
    let raw ← Outcome.ofOption (.new .internal empty) message
    .ok (raw, metadata)

/-- What the server- and bidi-streaming calls do with a response. -/
def streamReply (response : Response) : Outcome Status (List Item × Metadata) :=
  let encoding := encodingFromHeaders response.headers
  let metadata := metadataFromResponse base64 response.headers endpoint.maxMessageSize
  .ok (itemsOf (GrpcResponseBody.messages codec base64 encoding endpoint.maxMessageSize
    response.trailers response.chunks), metadata)

def unaryOnce (response : Response) : Outcome Status (List UInt8 × Metadata) :=
  singleReply codec base64 endpoint "empty unary response" response

/-- Attempts are made until one succeeds, its failure is not retryable, or none is left. -/
def retrying (policy : RetryPolicy) (attempt : Nat → Outcome Status (List UInt8 × Metadata)) :
    Nat → Nat → Outcome Status (List UInt8 × Metadata)
  | 0, n => attempt n
  | left + 1, n =>
    match attempt n with
    | .err status =>
      if policy.retryable.contains status.code then retrying policy attempt left (n + 1)
      else .err status
    | other => other

/-- `respond` gives the server's response to each attempt. -/
def unary (respond : Nat → Response) : Outcome Status (List UInt8 × Metadata) :=
  retrying endpoint.retryPolicy (fun n => unaryOnce codec base64 endpoint (respond n))
    endpoint.retryPolicy.maxRetries 0

def serverStreaming (response : Response) : Outcome Status (List Item × Metadata) :=
  streamReply codec base64 endpoint response

/-- `written` is what the task that writes the request stream ended with. -/
def clientStreaming (written : Option Status) (response : Response) :
    Outcome Status (List UInt8 × Metadata) :=
  match written with
  | some status => .err status
  | none => singleReply codec base64 endpoint "empty response" response

def bidiStreaming (response : Response) : Outcome Status (List Item × Metadata) :=
  streamReply codec base64 endpoint response

/-- A call of a kind to which the server answers with one response. -/
def call (kind : MethodKind) (response : Response) : Reply :=
  match kind with
  | .unary => .single (unary codec base64 endpoint fun _ => response)
  | .serverStreaming => .stream (serverStreaming codec base64 endpoint response)
  | .clientStreaming => .single (clientStreaming codec base64 endpoint none response)
  | .bidiStreaming => .stream (bidiStreaming codec base64 endpoint response)

theorem retrying_const (policy : RetryPolicy) (result : Outcome Status (List UInt8 × Metadata))
    (left n : Nat) : retrying policy (fun _ => result) left n = result := by
  induction left generalizing n with
  | zero => rfl
  | succ left inductionHypothesis =>
    rw [retrying]
    cases result with
    | err status =>
      simp only
      rw [inductionHypothesis, ite_self]
    | ok | panic | outOfFuel => rfl

/-- What the reader of the body makes of the response. -/
def bodyItems (response : Response) : List (List UInt8) × Option Status :=
  GrpcResponseBody.messages codec base64 (encodingFromHeaders response.headers)
    endpoint.maxMessageSize response.trailers response.chunks

/-- A call for one message takes the last message of a body that ends well. -/
theorem call_single {kind : MethodKind} (single : kind.serverStreaming? = false)
    (response : Response) : ∃ empty, call codec base64 endpoint kind response =
      .single (match bodyItems codec base64 endpoint response with
        | (_, some status) => .err status
        | (messages, none) => match messages.getLast? with
          | some raw =>
            .ok (raw, metadataFromResponse base64 response.headers endpoint.maxMessageSize)
          | none => .err (.new .internal empty)) := by
  have reply (empty : String) : singleReply codec base64 endpoint empty response =
      match bodyItems codec base64 endpoint response with
      | (_, some status) => .err status
      | (messages, none) => match messages.getLast? with
        | some raw =>
          .ok (raw, metadataFromResponse base64 response.headers endpoint.maxMessageSize)
        | none => .err (.new .internal empty) := by
    simp only [singleReply, readUnary, bodyItems, lastMessage]
    obtain ⟨messages, ending⟩ := GrpcResponseBody.messages codec base64
      (encodingFromHeaders response.headers) endpoint.maxMessageSize response.trailers response.chunks
    cases ending with
    | some status => rfl
    | none =>
      simp only
      cases messages.getLast? <;> rfl
  cases kind with
  | unary =>
    refine ⟨"empty unary response", ?_⟩
    simp only [call, unary, retrying_const, unaryOnce, reply]
  | clientStreaming =>
    refine ⟨"empty response", ?_⟩
    simp only [call, clientStreaming, reply]
  | serverStreaming | bidiStreaming => cases single

/-- A streaming call hands on the items of the body. -/
theorem call_stream {kind : MethodKind} (streaming : kind.serverStreaming? = true)
    (response : Response) : call codec base64 endpoint kind response =
      .stream (.ok (itemsOf (bodyItems codec base64 endpoint response),
        metadataFromResponse base64 response.headers endpoint.maxMessageSize)) := by
  cases kind with
  | unary | clientStreaming => cases streaming
  | serverStreaming | bidiStreaming => rfl

end Client

end TptProto.Grpc

/-! The debugging transport: it collects a whole response before it splits the frames. -/

namespace TptProto.Grpc

open TptProto.Core TptProto.Foundation

/-- Append chunk after chunk while the buffer is within the maximum. -/
def collectBody (max : Nat) (buf : List UInt8) : List (List UInt8) → Outcome Status (List UInt8)
  | [] => .ok buf
  | chunk :: rest =>
    if (buf ++ chunk).length > max then
      .err (.new .resourceExhausted s!"response body exceeds {max} bytes")
    else collectBody max (buf ++ chunk) rest

/-- The maximum is on all of the data. -/
theorem collectBody_eq (max : Nat) (buf : List UInt8) (chunks : List (List UInt8))
    (start : buf.length ≤ max) :
    collectBody max buf chunks =
      if max < (buf ++ chunks.flatten).length then
        .err (.new .resourceExhausted s!"response body exceeds {max} bytes")
      else .ok (buf ++ chunks.flatten) := by
  induction chunks generalizing buf with
  | nil =>
    rw [collectBody, List.flatten_nil, List.append_nil, if_neg (by omega)]
  | cons chunk rest inductionHypothesis =>
    rw [collectBody, List.flatten_cons, ← List.append_assoc]
    by_cases large : (buf ++ chunk).length > max
    · rw [if_pos large, if_pos (by rw [List.length_append]; omega)]
    · rw [if_neg large]
      exact inductionHypothesis _ (by omega)

/-- One pass of the splitting loop: the frames so far and the offset `i`. The slice
`buf[i..total]` panics when `total` lies before `i`. -/
def splitStep (buf : List UInt8) (state : List (List UInt8) × Nat) :
    Outcome Status (List (List UInt8) × Nat) :=
  let (out, i) := state
  if i + 5 > buf.length then .err (.new .internal "truncated gRPC frame header")
  else
    let total := 5 + declaredLength (buf.drop i)
    if total > buf.length then .err (.new .internal "truncated gRPC message body")
    else if total < i then .panic
    else .ok (out ++ [(buf.drop i).take (total - i)], total)

def splitMore (buf : List UInt8) (state : List (List UInt8) × Nat) : Bool := state.2 < buf.length

/-- Every pass that moves on advances the offset; a pass that does not move repeats forever. -/
def splitGrpcFrames (buf : List UInt8) : Outcome Status (List (List UInt8)) := do
  let (out, _) ← loop (splitMore buf) (splitStep buf) (buf.length + 1) ([], 0)
  .ok out

def statusFromTrailers (trailers : Option HeaderMap) : Option Status := do
  let headers ← trailers
  let code ← ((headers.get "grpc-status").bind toStr).bind (Decimal.parseInt (2 ^ 31))
  if code = 0 then none
  else
    let message := ((headers.get "grpc-message").bind toStr).getD ""
    some (.new (Code.fromI32 code) message)

/-- One header of a block. A key that does not validate is dropped. -/
def mergeHeader (metadata : Metadata) (header : String × List UInt8) : Metadata :=
  if startsWith header.1 ":" then metadata
  else match toStr header.2 with
    | some value => unwrapOrDefault metadata (metadata.insertTextReceived header.1 value)
    | none => metadata

def mergeMetadata (headers : HeaderMap) (trailers : Option HeaderMap) : Metadata :=
  (trailers.getD []).foldl mergeHeader (headers.foldl mergeHeader {})

structure H2Transport where
  compression : Compression := .identity
  maxMessageSize : Nat := maxMessageSizeDefault
  deriving DecidableEq, Repr

namespace H2Transport

variable (codec : GzipCodec) (transport : H2Transport)

/-- Decode one frame with the transport's own compression. -/
def unframe (raw : List UInt8) : Item :=
  match decodeMessage codec raw transport.compression transport.maxMessageSize with
  | .ok payload => .ok payload
  | .error e => .error (.new .internal s!"unframe: {e}")

/-- What the unary and client-streaming calls do with a response. -/
def singleReply (response : Response) : Outcome Status (List UInt8 × Metadata) := do
  let body ← collectBody transport.maxMessageSize [] response.chunks
  match statusFromTrailers response.trailers with
  | some status => .err status
  | none => do
    let frames ← splitGrpcFrames body
    let raw ← Outcome.ofOption (.new .internal "empty response body") frames.head?
    match transport.unframe codec raw with
    | .ok payload => .ok (payload, mergeMetadata response.headers response.trailers)
    | .error status => .err status

/-- What the server- and bidi-streaming calls do with a response. -/
def streamReply (response : Response) : Outcome Status (List Item × Metadata) := do
  let body ← collectBody transport.maxMessageSize [] response.chunks
  let metadata := mergeMetadata response.headers response.trailers
  let frames ← splitGrpcFrames body
  .ok (frames.map (transport.unframe codec), metadata)

def call (kind : MethodKind) (response : Response) : Reply :=
  match kind with
  | .unary | .clientStreaming => .single (transport.singleReply codec response)
  | .serverStreaming | .bidiStreaming => .stream (transport.streamReply codec response)

end H2Transport

end TptProto.Grpc
