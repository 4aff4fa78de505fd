import TptProto.Grpc.Deframe
import TptProto.Grpc.FrameSplit
import TptProto.Grpc.HandleRequest

/-! Whether the bytes of messages survive a call under every setting of the compression. -/

namespace TptProto.Grpc

open TptProto.Core TptProto.Foundation

/-- The messages of a handler as a caller gets them: one, or a stream of them. -/
def Delivers (messages : List (List UInt8)) : Reply → Prop
  | .single (.ok (message, _)) => messages = [message]
  | .stream (.ok (items, _)) => items = messages.map .ok
  | _ => False

variable (codec : GzipCodec)

/-- A limit that admits a message before and after its compression. -/
structure Roomy (compression : Compression) (max : Nat) (message : List UInt8) : Prop where
  plain : message.length ≤ max
  sent : PayloadFits codec compression max message

section Frames

variable {compression : Compression} {max : Nat} {messages : List (List UInt8)}

/-- Encoding does not depend on the limit, once the message is within it. -/
private theorem encoded_of_roomy {max' : Nat} {bytes : List UInt8}
    (encoded : Encoded codec compression max messages bytes)
    (roomy : ∀ message ∈ messages, message.length ≤ max') :
    Encoded codec compression max' messages bytes := by
  induction encoded with
  | nil => exact .nil
  | cons frame _ inductionHypothesis =>
    obtain ⟨_, known, rfl⟩ := encodeMessage_eq_ok codec frame
    refine .cons ?_ (inductionHypothesis fun message member =>
      roomy message (List.mem_cons_of_mem _ member))
    exact encodeMessage_of_le codec known (roomy _ List.mem_cons_self)

/-- A reader that takes every payload for the message itself. -/
private theorem parse_identity (wording : Wording) (finish : List UInt8 → Option Status)
    {bytes : List UInt8} (encoded : Encoded codec compression max messages bytes)
    {limit : Nat} (fits : ∀ message ∈ messages, PayloadFits codec compression limit message) :
    (deframing codec wording .identity limit).parse finish bytes =
      (messages.map (wirePayload codec compression), finish []) := by
  induction encoded with
  | nil => exact Framing.parse_none _ finish rfl
  | @cons message frame rest messages one _ inductionHypothesis =>
    obtain ⟨_, known, rfl⟩ := encodeMessage_eq_ok codec one
    have here := fits message List.mem_cons_self
    have whole : (wirePayload codec compression message).length % 2 ^ 32 =
        (wirePayload codec compression message).length := Nat.mod_eq_of_lt here.counted
    have counted : (wirePayload codec compression message).length =
        (UInt32.ofNat (wirePayload codec compression message).length).toNat := by
      rw [UInt32.toNat_ofNat', whole]
    have read : decodeMessage codec (wireFlag compression ::
        (toBeBytes (UInt32.ofNat (wirePayload codec compression message).length) ++
          wirePayload codec compression message)) .identity limit =
        .ok (wirePayload codec compression message) := by
      rw [decodeMessage_frame codec counted here.admitted]
      have admitted : ¬ (wirePayload codec compression message).length > limit :=
        Nat.not_lt.mpr here.admitted
      rcases known with rfl | rfl
      · rfl
      · simp [wireFlag, compressionFlagUncompressed, compressionFlagCompressed,
          Compression.decompress, admitted, bind, Except.bind]
    have taken : (deframing codec wording .identity limit).take
        (framed (wireFlag compression) (wirePayload codec compression message) ++ rest) =
        some (.ok (wirePayload codec compression message), rest) := by
      rw [deframing_take, takeFrame_framed codec _ _ rest (by rw [whole]; exact here.admitted),
        whole, List.take_length, List.drop_length, List.nil_append, read]
    rw [Framing.parse_ok _ finish taken, inductionHypothesis fun other member =>
      fits other (List.mem_cons_of_mem _ member)]
    rfl

end Frames

section Replies

variable {compression : Compression} {message : List UInt8}

/-- What a reader with its own encoding takes for the message of a frame. -/
def seenAs (compression encoding : Compression) (message : List UInt8) : List UInt8 :=
  if compression = .gzip ∧ encoding = .identity then codec.encode message else message

private theorem decode_seen (lossless : codec.Lossless) {encoding : Compression} {max : Nat}
    (known : compression = .identity ∨ compression = .gzip)
    (known' : encoding = .identity ∨ encoding = .gzip) (roomy : Roomy codec compression max message) :
    decodeMessage codec (framed (wireFlag compression) (wirePayload codec compression message))
      encoding max = .ok (seenAs codec compression encoding message) := by
  have counted : (wirePayload codec compression message).length =
      (UInt32.ofNat (wirePayload codec compression message).length).toNat := by
    rw [UInt32.toNat_ofNat', Nat.mod_eq_of_lt roomy.sent.counted]
  have plain : ¬ message.length > max := Nat.not_lt.mpr roomy.plain
  have sent : ¬ (wirePayload codec compression message).length > max :=
    Nat.not_lt.mpr roomy.sent.admitted
  rw [framed, decodeMessage_frame codec counted roomy.sent.admitted]
  rcases known with rfl | rfl
  · simp [wireFlag, wirePayload, seenAs]
  · rcases known' with rfl | rfl
    · simp only [wirePayload] at sent
      simp [wireFlag, wirePayload, seenAs, compressionFlagUncompressed, compressionFlagCompressed,
        Compression.decompress, sent, bind, Except.bind]
    · simp [wireFlag, wirePayload, seenAs, compressionFlagUncompressed, compressionFlagCompressed,
        Compression.decompress, lossless message, plain, bind, Except.bind]

/-- A frame that is cut short is never decoded. -/
private theorem decode_cut (flag : UInt8) {payload : List UInt8} (counted : payload.length < 2 ^ 32)
    {n : Nat} (short : n < 5 + payload.length) (encoding : Compression) (max : Nat) :
    ∃ e, decodeMessage codec ((framed flag payload).take n) encoding max = .error e := by
  have length := framed_length flag payload
  have cut : ((framed flag payload).take n).length = n := by
    rw [List.length_take, length]
    omega
  unfold decodeMessage
  by_cases header : n < 5
  · rw [if_pos (by rw [cut]; exact header)]
    exact ⟨_, rfl⟩
  · have declared : declaredLength ((framed flag payload).take n) = payload.length := by
      have whole := declaredLength_framed flag payload []
      rw [List.append_nil, Nat.mod_eq_of_lt counted] at whole
      rw [← whole, declaredLength, declaredLength, List.drop_take, List.take_take]
      congr 3
      omega
    rw [if_neg (by rw [cut]; exact header)]
    simp only [declared]
    split
    · exact ⟨_, rfl⟩
    · rw [if_pos (by rw [List.length_drop, cut]; omega)]
      exact ⟨_, rfl⟩

private theorem sendMessages_encoded {config : ServerConfig} {messages frames : List (List UInt8)}
    (sent : sendMessages codec config messages = .ok frames) :
    Encoded codec config.responseCompression config.maxMessageSize messages frames.flatten ∧
      frames = messages.map fun message => framed (wireFlag config.responseCompression)
        (wirePayload codec config.responseCompression message) := by
  induction messages generalizing frames with
  | nil =>
    cases sent
    exact ⟨.nil, rfl⟩
  | cons raw rest inductionHypothesis =>
    simp only [sendMessages] at sent
    cases one : sendMessage codec config raw with
    | error status =>
      rw [one] at sent
      cases sent
    | ok frame =>
      cases others : sendMessages codec config rest with
      | error status =>
        rw [one, others] at sent
        cases sent
      | ok later =>
        rw [one, others] at sent
        cases sent
        have encoded : encodeMessage codec raw config.responseCompression config.maxMessageSize =
            .ok frame := by
          unfold sendMessage at one
          split at one
          · rename_i framed encoded
            cases one
            exact encoded
          · cases one
        obtain ⟨more, same⟩ := inductionHypothesis others
        refine ⟨.cons encoded more, ?_⟩
        rw [(encodeMessage_eq_ok codec encoded).2.2, same]
        rfl

end Replies

section Response

variable {config : ServerConfig} {messages : List (List UInt8)} {response : Response}
  {kind : MethodKind}

private theorem encode_or_same {compression : Compression}
    (known : compression = .identity ∨ compression = .gzip) :
    messages.map (wirePayload codec compression) = messages ↔
      compression = .identity ∨ ∀ message ∈ messages, codec.encode message = message := by
  rcases known with rfl | rfl
  · have same : wirePayload codec .identity = id := rfl
    simp [same]
  · have same : wirePayload codec .gzip = codec.encode := rfl
    rw [same]
    constructor
    · intro unchanged
      right
      intro message member
      exact List.map_inj_left.mp (unchanged.trans (List.map_id _).symm) message member
    · rintro (never | each)
      · cases never
      · exact (List.map_congr_left each).trans (List.map_id _)

/-- The client takes every response for uncompressed. -/
private theorem client_items (base64 : Base64) (endpoint : Endpoint)
    (answers : Answers codec config messages response)
    (roomy : ∀ message ∈ messages,
      PayloadFits codec config.responseCompression endpoint.maxMessageSize message) :
    Client.bodyItems codec base64 endpoint response =
      (messages.map (wirePayload codec config.responseCompression), none) := by
  obtain ⟨frames, sent, data⟩ := answers.data
  have encoded := (sendMessages_encoded codec sent).1
  rw [← data] at encoded
  have unannounced : encodingFromHeaders response.headers = .identity := by
    rw [answers.headers]
    rfl
  rw [Client.bodyItems, unannounced, GrpcResponseBody.messages_eq,
    parse_identity codec _ _ encoded roomy, answers.trailers]
  rfl

private theorem client_delivers_iff (base64 : Base64) (endpoint : Endpoint)
    (known : config.responseCompression = .identity ∨ config.responseCompression = .gzip)
    (answers : Answers codec config messages response)
    (roomy : ∀ message ∈ messages,
      PayloadFits codec config.responseCompression endpoint.maxMessageSize message)
    (shape : kind.serverStreaming? = false → ∃ message, messages = [message]) :
    Delivers messages (Client.call codec base64 endpoint kind response) ↔
      config.responseCompression = .identity ∨
        ∀ message ∈ messages, codec.encode message = message := by
  have items := client_items codec base64 endpoint answers roomy
  rw [← encode_or_same codec known]
  cases streaming : kind.serverStreaming? with
  | true =>
    rw [Client.call_stream codec base64 endpoint streaming, items]
    simp only [Delivers, itemsOf, Option.toList_none, List.map_nil, List.append_nil]
    constructor
    · intro same
      exact (List.map_inj_right fun _ _ equal => Except.ok.inj equal).mp same
    · intro same
      rw [same]
  | false =>
    obtain ⟨message, rfl⟩ := shape streaming
    obtain ⟨empty, reply⟩ := Client.call_single codec base64 endpoint streaming response
    rw [reply, items]
    simp [Delivers, eq_comm]

private theorem h2_unframe (lossless : codec.Lossless) (transport : H2Transport)
    (known : config.responseCompression = .identity ∨ config.responseCompression = .gzip)
    (known' : transport.compression = .identity ∨ transport.compression = .gzip)
    {message : List UInt8}
    (roomy : Roomy codec config.responseCompression transport.maxMessageSize message) :
    transport.unframe codec (framed (wireFlag config.responseCompression)
      (wirePayload codec config.responseCompression message)) =
      .ok (seenAs codec config.responseCompression transport.compression message) := by
  rw [H2Transport.unframe, decode_seen codec lossless known known' roomy]

private theorem seen_same_iff {compression encoding : Compression} (message : List UInt8)
    (known : compression = .identity ∨ compression = .gzip)
    (known' : encoding = .identity ∨ encoding = .gzip) :
    seenAs codec compression encoding message = message ↔
      compression = .identity ∨ encoding = .gzip ∨ codec.encode message = message := by
  rcases known with rfl | rfl
  · simp [seenAs]
  · rcases known' with rfl | rfl <;> simp [seenAs]

section Collected

variable (transport : H2Transport) (short : response.chunks.flatten.length ≤ transport.maxMessageSize)

include short in
private theorem h2_collected : collectBody transport.maxMessageSize [] response.chunks =
    .ok response.chunks.flatten := by
  rw [collectBody_eq _ _ _ (Nat.zero_le _), List.nil_append, if_neg (by omega)]

include short in
/-- A stream of two or more messages never arrives, compressed or not. -/
private theorem h2_many {first second : List UInt8} {rest : List (List UInt8)}
    (data : response.chunks.flatten = (List.map (fun message =>
      framed (wireFlag config.responseCompression)
        (wirePayload codec config.responseCompression message)) (first :: second :: rest)).flatten)
    (counted : ∀ message ∈ first :: second :: rest,
      (wirePayload codec config.responseCompression message).length < 2 ^ 32) :
    ¬ Delivers (first :: second :: rest) (.stream (transport.streamReply codec response)) := by
  intro delivers
  rw [H2Transport.streamReply, h2_collected transport short, Outcome.ok_bind] at delivers
  cases split : splitGrpcFrames response.chunks.flatten with
  | ok frames =>
    rw [split] at delivers
    have items : frames.map (transport.unframe codec) = (first :: second :: rest).map .ok := delivers
    rw [data, List.map_cons, List.map_cons, List.flatten_cons, List.flatten_cons] at split
    obtain ⟨n, cut, member⟩ := split_second (counted first (by simp)) (counted second (by simp)) split
    obtain ⟨e, failed⟩ := decode_cut codec (wireFlag config.responseCompression)
      (counted second (by simp)) cut transport.compression transport.maxMessageSize
    have refused : transport.unframe codec ((framed (wireFlag config.responseCompression)
        (wirePayload codec config.responseCompression second)).take n) =
        .error (.new .internal s!"unframe: {e}") := by
      rw [H2Transport.unframe, failed]
    have shown := List.mem_map_of_mem (f := transport.unframe codec) member
    rw [items, refused] at shown
    obtain ⟨message, _, absurd⟩ := List.mem_map.mp shown
    cases absurd
  | err status =>
    rw [split] at delivers
    exact delivers
  | panic =>
    rw [split] at delivers
    exact delivers
  | outOfFuel =>
    rw [split] at delivers
    exact delivers

include short in
/-- The one message of a response, as the transport decodes it. -/
private theorem h2_one (lossless : codec.Lossless)
    (known : config.responseCompression = .identity ∨ config.responseCompression = .gzip)
    (known' : transport.compression = .identity ∨ transport.compression = .gzip)
    {message : List UInt8} (trailers : response.trailers = some okTrailers)
    (data : response.chunks.flatten = framed (wireFlag config.responseCompression)
      (wirePayload codec config.responseCompression message))
    (roomy : Roomy codec config.responseCompression transport.maxMessageSize message) :
    Delivers [message] (transport.call codec kind response) ↔
      seenAs codec config.responseCompression transport.compression message = message := by
  have fine : statusFromTrailers response.trailers = none := by
    rw [trailers]
    decide
  have split := split_single (wireFlag config.responseCompression) roomy.sent.counted
  have read := h2_unframe codec lossless transport known known' roomy
  cases kind with
  | unary | clientStreaming =>
    simp only [H2Transport.call, H2Transport.singleReply, h2_collected transport short,
      Outcome.ok_bind, fine, data, split, List.head?_cons, Outcome.ofOption_some, read, Delivers,
      List.cons.injEq, and_true]
    exact eq_comm
  | serverStreaming | bidiStreaming =>
    simp only [H2Transport.call, H2Transport.streamReply, h2_collected transport short,
      Outcome.ok_bind, data, split, List.map_cons, List.map_nil, read, Delivers, List.cons.injEq,
      and_true, Except.ok.injEq]

end Collected

private theorem h2_delivers_iff (lossless : codec.Lossless) (transport : H2Transport)
    (known : config.responseCompression = .identity ∨ config.responseCompression = .gzip)
    (known' : transport.compression = .identity ∨ transport.compression = .gzip)
    (answers : Answers codec config messages response)
    (roomy : ∀ message ∈ messages,
      Roomy codec config.responseCompression transport.maxMessageSize message)
    (short : response.chunks.flatten.length ≤ transport.maxMessageSize)
    (shape : kind.serverStreaming? = false → ∃ message, messages = [message]) :
    Delivers messages (transport.call codec kind response) ↔
      messages.length ≤ 1 ∧ (config.responseCompression = .identity ∨
        transport.compression = .gzip ∨ ∀ message ∈ messages, codec.encode message = message) := by
  obtain ⟨frames, sent, data⟩ := answers.data
  obtain ⟨_, rfl⟩ := sendMessages_encoded codec sent
  match messages with
  | [message] =>
    rw [h2_one codec transport short lossless known known' answers.trailers (by simp [data])
      (roomy message List.mem_cons_self), seen_same_iff codec message known known']
    simp
  | [] =>
    have reply : transport.call codec kind response =
        .stream (.ok ([], mergeMetadata response.headers response.trailers)) := by
      cases kind with
      | unary | clientStreaming =>
        obtain ⟨message, absurd⟩ := shape rfl
        cases absurd
      | serverStreaming | bidiStreaming =>
        simp only [H2Transport.call, H2Transport.streamReply, h2_collected transport short,
          Outcome.ok_bind, data]
        rfl
    rw [reply]
    simp [Delivers]
  | first :: second :: rest =>
    constructor
    · intro delivers
      cases kind with
      | unary | clientStreaming =>
        obtain ⟨message, absurd⟩ := shape rfl
        cases absurd
      | serverStreaming | bidiStreaming =>
        exact (h2_many codec transport short data (fun message member =>
          (roomy message member).sent.counted) delivers).elim
    · rintro ⟨few, _⟩
      simp at few

end Response

section Request

variable (now : SystemTime)

/-- A key that metadata admit is none of those that the loop reads for itself. -/
private theorem gather_authored (gathered : Gathered) {header : String × List UInt8}
    (authored : Metadata.validateKey header.1 false = .ok ()) :
    ∃ next, gather now gathered header = .ok next ∧
      next.requestEncoding = gathered.requestEncoding := by
  have timeout : header.1 ≠ "grpc-timeout" := by
    intro same
    rw [same] at authored
    cases authored
  have encoding : header.1 ≠ "grpc-encoding" := by
    intro same
    rw [same] at authored
    cases authored
  unfold gather
  split
  · exact ⟨_, rfl, rfl⟩
  · split
    · exact ⟨_, rfl, rfl⟩
    · split <;> exact ⟨_, rfl, rfl⟩

private theorem gather_metadata (metadata : RequestMetadata) (gathered : Gathered) :
    ∃ last, metadata.headers.foldlM (gather now) gathered = .ok last ∧
      last.requestEncoding = gathered.requestEncoding := by
  obtain ⟨headers, authored⟩ := metadata
  simp only
  induction headers generalizing gathered with
  | nil => exact ⟨gathered, rfl, rfl⟩
  | cons header rest inductionHypothesis =>
    obtain ⟨next, moved, same⟩ := gather_authored now gathered (authored header List.mem_cons_self)
    obtain ⟨last, run, kept⟩ := inductionHypothesis next
      fun other member => authored other (List.mem_cons_of_mem _ member)
    exact ⟨last, by rw [List.foldlM_cons, moved, Outcome.ok_bind, run], kept.trans same⟩

private theorem gather_encoding {compression : Compression} (gathered : Gathered)
    (start : gathered.requestEncoding = .identity)
    (known : compression = .identity ∨ compression = .gzip) :
    ∃ next, (encodingHeader compression).foldlM (gather now) gathered = .ok next ∧
      next.requestEncoding = compression := by
  rcases known with rfl | rfl
  · exact ⟨gathered, rfl, start⟩
  · refine ⟨{ gathered with requestEncoding := .gzip }, ?_, rfl⟩
    simp only [encodingHeader, reduceCtorEq, if_false, List.foldlM_cons, List.foldlM_nil]
    rfl

private theorem client_announces {compression : Compression}
    (known : compression = .identity ∨ compression = .gzip) (metadata : RequestMetadata) :
    ∃ last, (Client.requestHeaders compression metadata).foldlM (gather now) {} = .ok last ∧
      last.requestEncoding = compression := by
  obtain ⟨next, announced, encoding⟩ := gather_encoding now {} rfl known
  obtain ⟨last, run, kept⟩ := gather_metadata now metadata next
  refine ⟨last, ?_, kept.trans encoding⟩
  rw [Client.requestHeaders, List.append_assoc, List.foldlM_append]
  show (encodingHeader compression ++ metadata.headers).foldlM (gather now) {} = .ok last
  rw [List.foldlM_append, announced, Outcome.ok_bind, run]

private theorem h2_announces (transport : H2Transport)
    (known : transport.compression = .identity ∨ transport.compression = .gzip)
    (metadata : RequestMetadata) :
    ∃ last, (transport.requestHeaders metadata).foldlM (gather now) {} = .ok last ∧
      last.requestEncoding = transport.compression := by
  obtain ⟨next, run, kept⟩ := gather_metadata now metadata
    { userAgent := some "tpt-proto-grpc/0.1" }
  obtain ⟨last, announced, encoding⟩ := gather_encoding now next kept known
  refine ⟨last, ?_, encoding⟩
  rw [H2Transport.requestHeaders, List.append_assoc, List.foldlM_append]
  show (metadata.headers ++ encodingHeader transport.compression).foldlM (gather now)
    { userAgent := some "tpt-proto-grpc/0.1" } = .ok last
  rw [List.foldlM_append, run, Outcome.ok_bind, announced]

end Request

/-- The handler is given exactly the messages of the caller: one of them, or a stream. -/
def HandlerSees (base64 : Base64) (now : SystemTime) (config : ServerConfig) (kind : MethodKind)
    (headers : HeaderMap) (chunks messages : List (List UInt8)) : Prop :=
  ∃ ctx encoding,
    buildContext base64 now headers "peer" none config.maxMetadataSize = .ok (ctx, encoding) ∧
      if kind.clientStreaming? then
        DeframeStream.messages codec encoding config.maxMessageSize chunks = (messages, none)
      else ∃ message, messages = [message] ∧
        readSingleMessage codec encoding config.maxMessageSize chunks = .ok (some message)

/-- A call with what either side sends and what the network delivers, the limits being
large enough for all of it. -/
structure Exchange (compression : Compression) (clientMax : Nat) (config : ServerConfig)
    (kind : MethodKind) where
  requests : List (List UInt8)
  requestChunks : List (List UInt8)
  encoded : Encoded codec compression clientMax requests requestChunks.flatten
  requestRoomy : ∀ message ∈ requests, Roomy codec compression config.maxMessageSize message
  requestShape : kind.clientStreaming? = false → ∃ message, requests = [message]
  messages : List (List UInt8)
  response : Response
  answers : Answers codec config messages response
  responseRoomy : ∀ message ∈ messages,
    Roomy codec config.responseCompression clientMax message
  responseShort : response.chunks.flatten.length ≤ clientMax
  responseShape : kind.serverStreaming? = false → ∃ message, messages = [message]

/-- The debugging transport with the settings of an endpoint. -/
def Endpoint.h2Transport (endpoint : Endpoint) : H2Transport :=
  ⟨endpoint.compression, endpoint.maxMessageSize⟩

section Calls

variable {compression : Compression} {clientMax : Nat} {config : ServerConfig} {kind : MethodKind}

private theorem handler_sees (lossless : codec.Lossless)
    (base64 : Base64) {now : SystemTime} {headers : HeaderMap}
    (announces : ∃ last, headers.foldlM (gather now) {} = .ok last ∧
      last.requestEncoding = compression)
    (exchange : Exchange codec compression clientMax config kind) :
    HandlerSees codec base64 now config kind headers exchange.requestChunks exchange.requests := by
  obtain ⟨last, run, encoding⟩ := announces
  have encoded := encoded_of_roomy codec exchange.encoded
    fun message member => (exchange.requestRoomy message member).plain
  have read : DeframeStream.messages codec compression config.maxMessageSize
      exchange.requestChunks = (exchange.requests, none) := by
    rw [DeframeStream.messages_eq]
    exact parse_encoded codec DeframeStream.wording partialFrame lossless encoded
      fun message member => (exchange.requestRoomy message member).sent
  refine ⟨_, last.requestEncoding, by rw [buildContext, run]; rfl, ?_⟩
  rw [encoding]
  cases streaming : kind.clientStreaming? with
  | true => exact read
  | false =>
    obtain ⟨message, single⟩ := exchange.requestShape streaming
    refine ⟨message, single, ?_⟩
    rw [readSingleMessage, read, single]
    rfl

/-- Requests always arrive. The responses arrive through the client exactly when the server
does not compress, or compression changes nothing; through the debugging transport exactly when
they are one message at most, and the server does not compress, the transport is set to gzip
too, or compression changes nothing. -/
theorem integrity_iff (lossless : codec.Lossless)
    (base64 : Base64) (now : SystemTime) (metadata : RequestMetadata) (endpoint : Endpoint)
    (known : endpoint.compression = .identity ∨ endpoint.compression = .gzip)
    (server : config.responseCompression = .identity ∨ config.responseCompression = .gzip)
    (exchange : Exchange codec endpoint.compression endpoint.maxMessageSize config kind) :
    (HandlerSees codec base64 now config kind (Client.requestHeaders endpoint.compression metadata)
          exchange.requestChunks exchange.requests ∧
        (Delivers exchange.messages (Client.call codec base64 endpoint kind exchange.response) ↔
          config.responseCompression = .identity ∨
            ∀ message ∈ exchange.messages, codec.encode message = message)) ∧
      HandlerSees codec base64 now config kind (endpoint.h2Transport.requestHeaders metadata)
          exchange.requestChunks exchange.requests ∧
        (Delivers exchange.messages (endpoint.h2Transport.call codec kind exchange.response) ↔
          exchange.messages.length ≤ 1 ∧ (config.responseCompression = .identity ∨
            endpoint.compression = .gzip ∨
            ∀ message ∈ exchange.messages, codec.encode message = message)) := by
  refine ⟨⟨?_, ?_⟩, ?_, ?_⟩
  · exact handler_sees codec lossless base64 (client_announces now known metadata) exchange
  · exact client_delivers_iff codec base64 endpoint server exchange.answers
      (fun message member => (exchange.responseRoomy message member).sent) exchange.responseShape
  · exact handler_sees codec lossless base64
      (h2_announces now endpoint.h2Transport known metadata) exchange
  · exact h2_delivers_iff codec lossless endpoint.h2Transport server known exchange.answers
      exchange.responseRoomy exchange.responseShort exchange.responseShape

end Calls

/-- The response to a handler that gives `a`, compressed by the server. -/
def compressedA : Response :=
  ⟨sendHeaders, [framed 1 SampleGzip.streamOfA], some okTrailers⟩

private theorem compressedA_answers :
    Answers sampleGzip { responseCompression := .gzip } [[97]] compressedA :=
  ⟨rfl, rfl, _, rfl, rfl⟩

private theorem roomy_small {compression : Compression} {max : Nat} {message : List UInt8}
    (plain : message.length ≤ max)
    (sent : (wirePayload sampleGzip compression message).length ≤ max) (bounded : max < 2 ^ 32) :
    Roomy sampleGzip compression max message :=
  ⟨plain, sent, Nat.lt_of_le_of_lt sent bounded⟩

private theorem encoded_compressedA : Encoded sampleGzip .gzip 64 [[97]]
    ([[1, 0, 0, 0], (framed 1 SampleGzip.streamOfA).drop 4] : List (List UInt8)).flatten := by
  have one : encodeMessage sampleGzip [97] .gzip 64 = .ok (framed 1 SampleGzip.streamOfA) := rfl
  have whole : ([[1, 0, 0, 0], (framed 1 SampleGzip.streamOfA).drop 4] : List (List UInt8)).flatten =
      framed 1 SampleGzip.streamOfA ++ [] := by decide
  rw [whole]
  exact .cons one .nil

/-- A compressed request with one message, and its compressed response. -/
def exchangeA (kind : MethodKind) :
    Exchange sampleGzip .gzip 64 { responseCompression := .gzip } kind where
  requests := [[97]]
  requestChunks := [[1, 0, 0, 0], (framed 1 SampleGzip.streamOfA).drop 4]
  encoded := encoded_compressedA
  requestRoomy := by
    intro message member
    cases List.mem_singleton.mp member
    exact roomy_small (by decide) (by decide) (by decide)
  requestShape _ := ⟨_, rfl⟩
  messages := [[97]]
  response := compressedA
  answers := compressedA_answers
  responseRoomy := by
    intro message member
    cases List.mem_singleton.mp member
    exact roomy_small (by decide) (by decide) (by decide)
  responseShort := by decide
  responseShape _ := ⟨_, rfl⟩

theorem integrity_compressedA :
    Delivers [[97]] ((H2Transport.mk .gzip 64).call sampleGzip .serverStreaming compressedA) :=
  ((integrity_iff sampleGzip SampleGzip.lossless (fun _ => .ok []) ⟨1700000000, 0⟩ ⟨[], nofun⟩
    { compression := .gzip, maxMessageSize := 64 } (.inr rfl) (.inr rfl)
    (exchangeA .serverStreaming)).2.2).mpr ⟨by decide, .inr (.inl rfl)⟩

/-- The client hands on the gzip stream in place of the message. -/
theorem not_integrity_compressedA :
    Answers sampleGzip { responseCompression := .gzip } [[97]] compressedA ∧
      Client.call sampleGzip (fun _ => .ok []) { compression := .gzip } .unary compressedA =
        .single (.ok (SampleGzip.streamOfA, {})) ∧
      ¬ Delivers [[97]]
        (Client.call sampleGzip (fun _ => .ok []) { compression := .gzip } .unary compressedA) := by
  have reply : Client.call sampleGzip (fun _ => .ok []) { compression := .gzip } .unary compressedA =
      .single (.ok (SampleGzip.streamOfA, {})) := by
    have single : MethodKind.unary.serverStreaming? = false := rfl
    obtain ⟨empty, read⟩ := Client.call_single sampleGzip (fun _ => .ok []) { compression := .gzip }
      single compressedA
    have items : Client.bodyItems sampleGzip (fun _ => .ok []) { compression := .gzip } compressedA =
        ([SampleGzip.streamOfA], none) := by
      rw [Client.bodyItems, GrpcResponseBody.messages_eq, Framing.parse_ok _ _ (by rfl),
        Framing.parse_none _ _ (by rfl)]
      decide
    rw [read, items]
    rfl
  refine ⟨⟨rfl, rfl, _, rfl, rfl⟩, reply, ?_⟩
  rw [reply]
  intro delivers
  have same : [[97]] = [SampleGzip.streamOfA] := delivers
  revert same
  decide

end TptProto.Grpc
