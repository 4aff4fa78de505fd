import TptProto.Grpc.Codec
import TptProto.Grpc.Client

/-! The tasks that write a stream of request messages, and how they close it. -/

namespace TptProto.Grpc

open TptProto.Core TptProto.Foundation

/-- Data that HTTP/2 has accepted for a stream. -/
structure DataFrame where
  data : List UInt8
  endOfStream : Bool
  deriving DecidableEq, Repr

/-- Whether `send_data` accepts one more frame, by what it has accepted. -/
abbrev SendStream := List DataFrame → DataFrame → Except String Unit

def SendStream.sendData (stream : SendStream) (sent : List DataFrame) (data : List UInt8)
    (endOfStream : Bool) : Except String (List DataFrame) :=
  match stream sent ⟨data, endOfStream⟩ with
  | .ok () => .ok (sent ++ [⟨data, endOfStream⟩])
  | .error e => .error e

/-- `let _ = send_data(..)`. -/
def SendStream.trySend (stream : SendStream) (sent : List DataFrame) (data : List UInt8)
    (endOfStream : Bool) : List DataFrame :=
  match stream.sendData sent data endOfStream with
  | .ok sent => sent
  | .error _ => sent

variable (codec : GzipCodec) (stream : SendStream)

namespace Client

variable (endpoint : Endpoint)

/-- The loop of the writer task of `client_streaming_call`, with `last_err`. -/
def writeItems (sent : List DataFrame) : List Item → Option Status × List DataFrame
  | [] => (none, sent)
  | .ok raw :: rest =>
    match encodeMessage codec raw endpoint.compression endpoint.maxMessageSize with
    | .ok framed =>
      match stream.sendData sent framed false with
      | .ok sent => writeItems sent rest
      | .error e => (some (.new .internal s!"send_data: {e}"), sent)
    | .error e => (some (.new .internal e), sent)
  | .error e :: _ => (some e, sent)

/-- The writer task of `client_streaming_call`. -/
def writeClientStream (items : List Item) : Option Status × List DataFrame :=
  let (lastErr, sent) := writeItems codec stream endpoint [] items
  let end' := lastErr.isNone
  (lastErr, stream.trySend sent [] end')

/-- The loop of the writer task of `bidi_streaming_call`. -/
def writeUntilFailure (sent : List DataFrame) : List Item → List DataFrame
  | [] => sent
  | .ok raw :: rest =>
    match encodeMessage codec raw endpoint.compression endpoint.maxMessageSize with
    | .ok framed =>
      match stream.sendData sent framed false with
      | .ok sent => writeUntilFailure sent rest
      | .error _ => sent
    | .error _ => sent
  | .error _ :: _ => sent

/-- The writer task of `bidi_streaming_call`. -/
def writeBidiStream (items : List Item) : List DataFrame :=
  stream.trySend (writeUntilFailure codec stream endpoint [] items) [] true

end Client

namespace H2Transport

variable (transport : H2Transport)

/-- The request task of `exchange`, which returns at a failure. -/
def feed (sent : List DataFrame) : List Item → List DataFrame
  | [] => stream.trySend sent [] true
  | .error _ :: _ => sent
  | .ok msg :: rest =>
    match encodeMessage codec msg transport.compression transport.maxMessageSize with
    | .error _ => sent
    | .ok framed =>
      match stream.sendData sent framed false with
      | .ok sent => feed sent rest
      | .error _ => sent

/-- What `exchange` sends of a request: one body, or the items of a stream, if there is one. -/
def sendRequest (requestBody : Option (List UInt8)) (clientStream : Option (List Item)) :
    List DataFrame :=
  match requestBody with
  | some bytes => stream.trySend [] bytes true
  | none =>
    match clientStream with
    | some items => feed codec stream transport [] items
    | none => stream.trySend [] [] true

end H2Transport

section Closing

variable {codec stream} {compression : Compression} {max : Nat}
variable {items rest : List Item} {sent final : List DataFrame}

/-- The stream is ended. -/
def EndOfStream (sent : List DataFrame) : Prop := ∃ frame ∈ sent, frame.endOfStream = true

/-- Every item is a message that is framed and sent, behind frames sent before. -/
inductive AllSent (codec : GzipCodec) (stream : SendStream) (compression : Compression) (max : Nat) :
    List DataFrame → List Item → List DataFrame → Prop where
  | done {sent : List DataFrame} : AllSent codec stream compression max sent [] sent
  | sent {sent sent' final : List DataFrame} {raw framed : List UInt8} {rest : List Item}
      (encodes : encodeMessage codec raw compression max = .ok framed)
      (accepted : stream.sendData sent framed false = .ok sent')
      (later : AllSent codec stream compression max sent' rest final) :
      AllSent codec stream compression max sent (.ok raw :: rest) final

/-- Some item is an error, or is not framed, or is not sent, behind frames sent before. -/
inductive StopsAt (codec : GzipCodec) (stream : SendStream) (compression : Compression) (max : Nat) :
    List DataFrame → List Item → List DataFrame → Prop where
  | error {sent : List DataFrame} {e : Status} {rest : List Item} :
      StopsAt codec stream compression max sent (.error e :: rest) sent
  | unframed {sent : List DataFrame} {raw : List UInt8} {rest : List Item} {e : String}
      (unframed : encodeMessage codec raw compression max = .error e) :
      StopsAt codec stream compression max sent (.ok raw :: rest) sent
  | refused {sent : List DataFrame} {raw framed : List UInt8} {rest : List Item} {e : String}
      (encodes : encodeMessage codec raw compression max = .ok framed)
      (refused : stream.sendData sent framed false = .error e) :
      StopsAt codec stream compression max sent (.ok raw :: rest) sent
  | later {sent sent' final : List DataFrame} {raw framed : List UInt8} {rest : List Item}
      (encodes : encodeMessage codec raw compression max = .ok framed)
      (accepted : stream.sendData sent framed false = .ok sent')
      (later : StopsAt codec stream compression max sent' rest final) :
      StopsAt codec stream compression max sent (.ok raw :: rest) final

private theorem sent_or_stops (sent : List DataFrame) (items : List Item) :
    (∃ final, AllSent codec stream compression max sent items final) ∨
      ∃ final, StopsAt codec stream compression max sent items final := by
  induction items generalizing sent with
  | nil => exact .inl ⟨sent, .done⟩
  | cons item rest inductionHypothesis =>
    cases item with
    | error e => exact .inr ⟨sent, .error⟩
    | ok raw =>
      cases framed : encodeMessage codec raw compression max with
      | error e => exact .inr ⟨sent, .unframed framed⟩
      | ok frame =>
        cases accepted : stream.sendData sent frame false with
        | error e => exact .inr ⟨sent, .refused framed accepted⟩
        | ok sent' =>
          rcases inductionHypothesis sent' with ⟨final, all⟩ | ⟨final, stops⟩
          · exact .inl ⟨final, .sent framed accepted all⟩
          · exact .inr ⟨final, .later framed accepted stops⟩

private theorem AllSent.unique {final' : List DataFrame}
    (all : AllSent codec stream compression max sent items final)
    (other : AllSent codec stream compression max sent items final') : final = final' := by
  induction all with
  | done =>
    cases other
    rfl
  | sent framed accepted _ inductionHypothesis =>
    cases other with
    | sent framed' accepted' later =>
      rw [framed] at framed'
      cases framed'
      rw [accepted] at accepted'
      cases accepted'
      exact inductionHypothesis later

private theorem StopsAt.unique {final' : List DataFrame}
    (stops : StopsAt codec stream compression max sent items final)
    (other : StopsAt codec stream compression max sent items final') : final = final' := by
  induction stops with
  | error =>
    cases other
    rfl
  | unframed unframed =>
    cases other with
    | unframed _ => rfl
    | refused _ _ => rfl
    | later encodes _ _ =>
      rw [unframed] at encodes
      cases encodes
  | refused encodes refused =>
    cases other with
    | unframed _ => rfl
    | refused _ _ => rfl
    | later encodes' accepted _ =>
      rw [encodes] at encodes'
      cases encodes'
      rw [refused] at accepted
      cases accepted
  | later encodes accepted _ inductionHypothesis =>
    cases other with
    | unframed unframed =>
      rw [encodes] at unframed
      cases unframed
    | refused encodes' refused =>
      rw [encodes] at encodes'
      cases encodes'
      rw [accepted] at refused
      cases refused
    | later encodes' accepted' later =>
      rw [encodes] at encodes'
      cases encodes'
      rw [accepted] at accepted'
      cases accepted'
      exact inductionHypothesis later

private theorem AllSent.not_stops {final' : List DataFrame}
    (all : AllSent codec stream compression max sent items final) :
    ¬ StopsAt codec stream compression max sent items final' := by
  induction all with
  | done => nofun
  | sent framed accepted _ inductionHypothesis =>
    intro stops
    cases stops with
    | unframed unframed =>
      rw [framed] at unframed
      cases unframed
    | refused framed' refused =>
      rw [framed] at framed'
      cases framed'
      rw [accepted] at refused
      cases refused
    | later framed' accepted' later =>
      rw [framed] at framed'
      cases framed'
      rw [accepted] at accepted'
      cases accepted'
      exact inductionHypothesis later

private theorem sendData_eq {data : List UInt8} {endOfStream : Bool}
    (accepted : stream.sendData sent data endOfStream = .ok final) :
    final = sent ++ [⟨data, endOfStream⟩] := by
  unfold SendStream.sendData at accepted
  split at accepted
  · cases accepted
    rfl
  · cases accepted

private theorem trySend_ended (closed : ¬ EndOfStream sent) :
    EndOfStream (stream.trySend sent [] true) ↔ stream sent ⟨[], true⟩ = .ok () := by
  unfold SendStream.trySend SendStream.sendData
  cases answer : stream sent ⟨[], true⟩ with
  | ok u => simp [EndOfStream]
  | error e => simp [closed]

private theorem trySend_open (closed : ¬ EndOfStream sent) :
    ¬ EndOfStream (stream.trySend sent [] false) := by
  unfold SendStream.trySend SendStream.sendData
  cases stream sent ⟨[], false⟩ with
  | ok u =>
    rintro ⟨frame, member, ended⟩
    rcases List.mem_append.mp member with before | last
    · exact closed ⟨frame, before, ended⟩
    · rw [List.mem_singleton.mp last] at ended
      cases ended
  | error e => exact closed

private theorem open_sendData {data : List UInt8} (closed : ¬ EndOfStream sent)
    (accepted : stream.sendData sent data false = .ok final) : ¬ EndOfStream final := by
  rw [sendData_eq accepted]
  rintro ⟨frame, member, ended⟩
  rcases List.mem_append.mp member with before | last
  · exact closed ⟨frame, before, ended⟩
  · rw [List.mem_singleton.mp last] at ended
    cases ended

private theorem AllSent.isOpen (all : AllSent codec stream compression max sent items final)
    (closed : ¬ EndOfStream sent) : ¬ EndOfStream final := by
  induction all with
  | done => exact closed
  | sent _ accepted _ inductionHypothesis => exact inductionHypothesis (open_sendData closed accepted)

private theorem StopsAt.isOpen (stops : StopsAt codec stream compression max sent items final)
    (closed : ¬ EndOfStream sent) : ¬ EndOfStream final := by
  induction stops with
  | error => exact closed
  | unframed _ => exact closed
  | refused _ _ => exact closed
  | later _ accepted _ inductionHypothesis => exact inductionHypothesis (open_sendData closed accepted)

variable {endpoint : Endpoint} {transport : H2Transport}

private theorem AllSent.loops
    (all : AllSent codec stream endpoint.compression endpoint.maxMessageSize sent items final) :
    Client.writeItems codec stream endpoint sent items = (none, final) ∧
      Client.writeUntilFailure codec stream endpoint sent items = final := by
  induction all with
  | done => exact ⟨rfl, rfl⟩
  | sent encodes accepted _ inductionHypothesis =>
    rw [Client.writeItems, Client.writeUntilFailure, encodes]
    simp only [accepted]
    exact inductionHypothesis

private theorem StopsAt.loops
    (stops : StopsAt codec stream endpoint.compression endpoint.maxMessageSize sent items final) :
    (∃ status, Client.writeItems codec stream endpoint sent items = (some status, final)) ∧
      Client.writeUntilFailure codec stream endpoint sent items = final := by
  induction stops with
  | error => exact ⟨⟨_, rfl⟩, rfl⟩
  | unframed unframed =>
    rw [Client.writeItems, Client.writeUntilFailure, unframed]
    exact ⟨⟨_, rfl⟩, rfl⟩
  | refused encodes refused =>
    rw [Client.writeItems, Client.writeUntilFailure, encodes]
    simp only [refused]
    exact ⟨⟨_, rfl⟩, trivial⟩
  | later encodes accepted _ inductionHypothesis =>
    rw [Client.writeItems, Client.writeUntilFailure, encodes]
    simp only [accepted]
    exact inductionHypothesis

private theorem AllSent.feed
    (all : AllSent codec stream transport.compression transport.maxMessageSize sent items final) :
    transport.feed codec stream sent items = stream.trySend final [] true := by
  induction all with
  | done => rfl
  | sent encodes accepted _ inductionHypothesis =>
    rw [H2Transport.feed, encodes]
    simp only [accepted]
    exact inductionHypothesis

private theorem StopsAt.feed
    (stops : StopsAt codec stream transport.compression transport.maxMessageSize sent items final) :
    transport.feed codec stream sent items = final := by
  induction stops with
  | error => rfl
  | unframed unframed =>
    rw [H2Transport.feed, unframed]
  | refused encodes refused =>
    rw [H2Transport.feed, encodes]
    simp only [refused]
  | later encodes accepted _ inductionHypothesis =>
    rw [H2Transport.feed, encodes]
    simp only [accepted]
    exact inductionHypothesis

end Closing

section RequestStreams

variable (codec : GzipCodec) (stream : SendStream) (endpoint : Endpoint) (items : List Item)

/-- Every item of a request is framed and sent. -/
def Complete : Prop :=
  ∃ final, AllSent codec stream endpoint.compression endpoint.maxMessageSize [] items final

/-- The writers end the request stream for the complete requests, and for no others. -/
structure EndsComplete : Prop where
  clientStreaming : EndOfStream (Client.writeClientStream codec stream endpoint items).2 ↔
    Complete codec stream endpoint items
  bidiStreaming : EndOfStream (Client.writeBidiStream codec stream endpoint items) ↔
    Complete codec stream endpoint items
  exchange : EndOfStream (H2Transport.sendRequest codec stream
      ⟨endpoint.compression, endpoint.maxMessageSize⟩ none (some items)) ↔
    Complete codec stream endpoint items

/-- HTTP/2 accepts the frame that closes a complete request, and refuses one behind a failure. -/
structure ClosesComplete : Prop where
  accepted : ∀ final, AllSent codec stream endpoint.compression endpoint.maxMessageSize [] items final →
    stream final ⟨[], true⟩ = .ok ()
  refused : ∀ final, StopsAt codec stream endpoint.compression endpoint.maxMessageSize [] items final →
    stream final ⟨[], true⟩ ≠ .ok ()

variable {codec stream endpoint items}

private theorem endsComplete_of_allSent {final : List DataFrame}
    (all : AllSent codec stream endpoint.compression endpoint.maxMessageSize [] items final) :
    EndsComplete codec stream endpoint items ↔ stream final ⟨[], true⟩ = .ok () := by
  have ended := @trySend_ended stream final (all.isOpen nofun)
  have complete : Complete codec stream endpoint items := ⟨final, all⟩
  have exchanged : H2Transport.sendRequest codec stream
      ⟨endpoint.compression, endpoint.maxMessageSize⟩ none (some items) =
      stream.trySend final [] true :=
    @AllSent.feed codec stream items [] final ⟨endpoint.compression, endpoint.maxMessageSize⟩ all
  constructor
  · intro ends
    rw [← ended, ← exchanged]
    exact ends.exchange.mpr complete
  · intro accepted
    have closes := ended.mpr accepted
    constructor
    · rw [Client.writeClientStream, all.loops.1]
      exact iff_of_true closes complete
    · rw [Client.writeBidiStream, all.loops.2]
      exact iff_of_true closes complete
    · rw [exchanged]
      exact iff_of_true closes complete

private theorem endsComplete_of_stopsAt {final : List DataFrame}
    (stops : StopsAt codec stream endpoint.compression endpoint.maxMessageSize [] items final) :
    EndsComplete codec stream endpoint items ↔ stream final ⟨[], true⟩ ≠ .ok () := by
  have closed := stops.isOpen nofun
  have ended := @trySend_ended stream final closed
  have incomplete : ¬ Complete codec stream endpoint items := by
    rintro ⟨other, all⟩
    exact all.not_stops stops
  constructor
  · intro ends accepted
    apply incomplete
    rw [← ends.bidiStreaming, Client.writeBidiStream, stops.loops.2]
    exact ended.mpr accepted
  · intro refused
    obtain ⟨status, stopped⟩ := stops.loops.1
    constructor
    · rw [Client.writeClientStream, stopped]
      exact iff_of_false (trySend_open closed) incomplete
    · rw [Client.writeBidiStream, stops.loops.2]
      exact iff_of_false (fun closes => refused (ended.mp closes)) incomplete
    · rw [show H2Transport.sendRequest codec stream
          ⟨endpoint.compression, endpoint.maxMessageSize⟩ none (some items) = final from
        @StopsAt.feed codec stream items [] final ⟨endpoint.compression, endpoint.maxMessageSize⟩
          stops]
      exact iff_of_false closed incomplete

/-- The request stream is ended for exactly the complete requests when and only when HTTP/2 accepts
the end of a complete one, and refuses the end that the writer of a bidi stream sends behind a
failure. -/
theorem endsComplete_iff (codec : GzipCodec) (stream : SendStream) (endpoint : Endpoint)
    (items : List Item) :
    EndsComplete codec stream endpoint items ↔ ClosesComplete codec stream endpoint items := by
  rcases @sent_or_stops codec stream endpoint.compression endpoint.maxMessageSize [] items with
    ⟨final, all⟩ | ⟨final, stops⟩
  · rw [endsComplete_of_allSent all]
    constructor
    · intro accepted
      refine ⟨fun other all' => ?_, fun other stops => (all.not_stops stops).elim⟩
      rwa [all'.unique all]
    · exact fun closes => closes.accepted final all
  · rw [endsComplete_of_stopsAt stops]
    constructor
    · intro refused
      refine ⟨fun other all => (all.not_stops stops).elim, fun other stops' => ?_⟩
      rwa [stops'.unique stops]
    · exact fun closes => closes.refused final stops

/-- A bidi stream that fails is closed as if it were complete. -/
theorem not_endsComplete : ¬ EndsComplete sampleGzip (fun _ _ => .ok ()) {}
    [.error (.new .cancelled "")] := by
  intro ends
  obtain ⟨final, all⟩ := ends.bidiStreaming.mp ⟨_, List.mem_singleton.mpr rfl, rfl⟩
  cases all

end RequestStreams

end TptProto.Grpc
