import TptProto.Foundation.Incremental
import TptProto.Foundation.Sequence
import TptProto.Grpc.Codec
import TptProto.Grpc.Status

/-! Streams of messages out of HTTP/2 bodies, on the server and on the client. -/

namespace TptProto.Grpc

open TptProto.Core TptProto.Foundation

/-- The texts in which the two readers differ. -/
structure Wording where
  tooLong : Nat → Nat → String
  undecodable : String → String

variable (codec : GzipCodec)

/-- Split one complete frame off the buffer and decode it. A length over the maximum
is refused before the payload has arrived. -/
def takeFrame (wording : Wording) (encoding : Compression) (max : Nat) (buf : List UInt8) :
    Option (Except Status (List UInt8) × List UInt8) :=
  if 5 ≤ buf.length then
    let declared := declaredLength buf
    if declared > max then
      some (.error (.new .resourceExhausted (wording.tooLong declared max)), buf)
    else
      let total := 5 + declared
      if total ≤ buf.length then
        match decodeMessage codec (buf.take total) encoding max with
        | .ok raw => some (.ok raw, buf.drop total)
        | .error e => some (.error (.new .internal (wording.undecodable e)), buf.drop total)
      else none
  else none

private theorem declaredLength_append {buf : List UInt8} (header : 5 ≤ buf.length)
    (more : List UInt8) : declaredLength (buf ++ more) = declaredLength buf := by
  unfold declaredLength
  rw [List.drop_append_of_le_length (by omega), List.take_append_of_le_length (by
    rw [List.length_drop]
    omega)]

private theorem takeFrame_stable {wording : Wording} {encoding : Compression} {max : Nat}
    {buf rest : List UInt8} {item : Except Status (List UInt8)}
    (taken : takeFrame codec wording encoding max buf = some (item, rest)) (more : List UInt8) :
    takeFrame codec wording encoding max (buf ++ more) = some (item, rest ++ more) := by
  unfold takeFrame at taken ⊢
  by_cases header : 5 ≤ buf.length
  · rw [if_pos header] at taken
    rw [if_pos (by rw [List.length_append]; omega), declaredLength_append header]
    simp only at taken ⊢
    by_cases large : declaredLength buf > max
    · rw [if_pos large] at taken ⊢
      cases taken
      rfl
    · rw [if_neg large] at taken ⊢
      by_cases complete : 5 + declaredLength buf ≤ buf.length
      · rw [if_pos complete] at taken
        rw [if_pos (by rw [List.length_append]; omega), List.take_append_of_le_length complete,
          List.drop_append_of_le_length complete]
        split at taken <;> cases taken <;> rfl
      · rw [if_neg complete] at taken
        cases taken
  · rw [if_neg header] at taken
    cases taken

private theorem takeFrame_shorter {wording : Wording} {encoding : Compression} {max : Nat}
    {buf rest raw : List UInt8}
    (taken : takeFrame codec wording encoding max buf = some (.ok raw, rest)) :
    rest.length < buf.length := by
  unfold takeFrame at taken
  split at taken
  · simp only at taken
    split at taken
    · cases taken
    · split at taken
      · split at taken
        · cases taken
          rw [List.length_drop]
          omega
        · cases taken
      · cases taken
  · cases taken

def deframing (wording : Wording) (encoding : Compression) (max : Nat) :
    Framing UInt8 Status (List UInt8) where
  take := takeFrame codec wording encoding max
  stable := takeFrame_stable codec
  shorter := takeFrame_shorter codec

@[simp] theorem deframing_take (wording : Wording) (encoding : Compression) (max : Nat) :
    (deframing codec wording encoding max).take = takeFrame codec wording encoding max := rfl

/-- Bytes left over at the end of the body. -/
def partialFrame (buf : List UInt8) : Option Status :=
  if buf.isEmpty then none
  else some (.new .internal "connection closed with a partial gRPC frame")

namespace DeframeStream

def wording : Wording where
  tooLong declared max := s!"declared message length {declared} exceeds maximum {max}"
  undecodable e := s!"failed to decode gRPC frame: {e}"

def pollNext (encoding : Compression) (max : Nat) (self : Source UInt8) :
    Option (Except Status (List UInt8)) × Source UInt8 :=
  (deframing codec wording encoding max).pollNext partialFrame self

/-- The messages of a request body up to the first error or the end. -/
def messages (encoding : Compression) (max : Nat) (chunks : List (List UInt8)) :
    List (List UInt8) × Option Status :=
  (deframing codec wording encoding max).drain partialFrame (.ofChunks chunks)

end DeframeStream

/-- The loop keeps the last message and stops at the first error. -/
def lastMessage (read : List (List UInt8) × Option Status) : Except Status (Option (List UInt8)) :=
  match read.2 with
  | some status => .error status
  | none => .ok read.1.getLast?

def readSingleMessage (encoding : Compression) (max : Nat) (chunks : List (List UInt8)) :
    Except Status (Option (List UInt8)) :=
  lastMessage (DeframeStream.messages codec encoding max chunks)

def headersToPairs (headers : HeaderMap) : List (String × String) :=
  headers.filterMap fun header => (toStr header.2).map fun text => (header.1, text)

def usizeMax : Nat := 2 ^ 64 - 1

variable (base64 : Base64)

namespace GrpcResponseBody

def wording : Wording where
  tooLong declared max := s!"message length {declared} exceeds maximum {max}"
  undecodable e := s!"decode frame: {e}"

/-- The status read from the trailers, once the body has ended. -/
def trailersStatus (headers : HeaderMap) : Status :=
  Status.fromTrailers (unwrapOrDefault {} (Metadata.fromTrailers base64 (headersToPairs headers)
    usizeMax))

/-- The final error item. A body that ends without trailers ends the stream. -/
def terminalStatus (trailers : Option HeaderMap) : Option Status :=
  match trailers with
  | some headers =>
    let status := trailersStatus base64 headers
    if status.isOk then none else some status
  | none => none

def finish (trailers : Option HeaderMap) (buf : List UInt8) : Option Status :=
  match partialFrame buf with
  | some status => some status
  | none => terminalStatus base64 trailers

def pollNext (encoding : Compression) (max : Nat) (trailers : Option HeaderMap)
    (self : Source UInt8) : Option (Except Status (List UInt8)) × Source UInt8 :=
  (deframing codec wording encoding max).pollNext (finish base64 trailers) self

/-- The items of a response body up to the first error or the end. -/
def messages (encoding : Compression) (max : Nat) (trailers : Option HeaderMap)
    (chunks : List (List UInt8)) : List (List UInt8) × Option Status :=
  (deframing codec wording encoding max).drain (finish base64 trailers) (.ofChunks chunks)

end GrpcResponseBody

end TptProto.Grpc

/-! What a deframed body yields: nothing depends on its chunks, and the frames of an
encoder come out as its messages exactly when every payload fits. -/

namespace TptProto.Grpc

open TptProto.Core TptProto.Foundation

variable (codec : GzipCodec)

/-- The payload that a frame carries for a message. -/
def wirePayload (compression : Compression) (message : List UInt8) : List UInt8 :=
  match compression with
  | .gzip => codec.encode message
  | _ => message

/-- The flag that a frame carries. -/
def wireFlag (compression : Compression) : UInt8 :=
  if compression = .identity then compressionFlagUncompressed else compressionFlagCompressed

/-- The receiver's maximum and the length field admit the payload of a message. -/
structure PayloadFits (compression : Compression) (max : Nat) (message : List UInt8) : Prop where
  admitted : (wirePayload codec compression message).length ≤ max
  counted : (wirePayload codec compression message).length < 2 ^ 32

/-- `bytes` is a concatenation of encoded frames. -/
def Encoded (compression : Compression) (max : Nat) : List (List UInt8) → List UInt8 → Prop :=
  Sequence fun message frame => encodeMessage codec message compression max = .ok frame

theorem encodeMessage_eq_ok {compression : Compression} {max : Nat} {message frame : List UInt8}
    (encoded : encodeMessage codec message compression max = .ok frame) :
    message.length ≤ max ∧ (compression = .identity ∨ compression = .gzip) ∧
      frame = framed (wireFlag compression) (wirePayload codec compression message) := by
  unfold encodeMessage at encoded
  split at encoded
  · cases encoded
  · rename_i short
    refine ⟨Nat.le_of_not_lt short, ?_⟩
    cases compression with
    | identity =>
      cases encoded
      exact ⟨.inl rfl, rfl⟩
    | gzip =>
      cases encoded
      exact ⟨.inr rfl, rfl⟩
    | other name => cases encoded

theorem encodeMessage_of_le {compression : Compression} {max : Nat} {message : List UInt8}
    (known : compression = .identity ∨ compression = .gzip) (short : message.length ≤ max) :
    encodeMessage codec message compression max =
      .ok (framed (wireFlag compression) (wirePayload codec compression message)) := by
  unfold encodeMessage
  rw [if_neg (by omega)]
  rcases known with rfl | rfl <;> rfl

section Take

variable (flag : UInt8) (payload rest : List UInt8)

private theorem framed_header : framed flag payload ++ rest =
    flag :: (toBeBytes (UInt32.ofNat payload.length) ++ (payload ++ rest)) := by
  simp [framed]

theorem declaredLength_framed :
    declaredLength (framed flag payload ++ rest) = payload.length % 2 ^ 32 := by
  rw [framed_header, declaredLength, List.drop_succ_cons, List.drop_zero,
    List.take_append_of_le_length (Nat.le_of_eq (toBeBytes_length _).symm),
    List.take_of_length_le (Nat.le_of_eq (toBeBytes_length _)), fromBeBytes_toBeBytes,
    UInt32.toNat_ofNat']

private theorem split_framed (n : Nat) (short : n ≤ payload.length) :
    (framed flag payload ++ rest).take (5 + n) =
        flag :: (toBeBytes (UInt32.ofNat payload.length) ++ payload.take n) ∧
      (framed flag payload ++ rest).drop (5 + n) = payload.drop n ++ rest := by
  have header : (flag :: toBeBytes (UInt32.ofNat payload.length)).length = 5 := rfl
  have whole : framed flag payload ++ rest =
      (flag :: toBeBytes (UInt32.ofNat payload.length)) ++ (payload ++ rest) := framed_header flag payload rest
  rw [whole, ← header, List.take_length_add_append, List.drop_length_add_append,
    List.take_append_of_le_length short, List.drop_append_of_le_length short]
  exact ⟨rfl, rfl⟩

/-- Decoding a frame whose payload is as long as declared. -/
theorem decodeMessage_frame {flag : UInt8} {payload : List UInt8} {encoding : Compression}
    {max : Nat} {length : UInt32}
    (same : payload.length = length.toNat) (fits : payload.length ≤ max) :
    decodeMessage codec (flag :: (toBeBytes length ++ payload)) encoding max =
      if flag = compressionFlagUncompressed then .ok payload
      else if flag = compressionFlagCompressed then do
        let data ← encoding.decompress codec payload max
        if data.length > max then
          .error s!"decompressed message length {data.length} exceeds maximum {max}"
        else .ok data
      else .error s!"invalid compression flag {flag}" := by
  have declared : declaredLength (flag :: (toBeBytes length ++ payload)) = length.toNat := by
    rw [declaredLength, List.drop_succ_cons, List.drop_zero,
      List.take_append_of_le_length (Nat.le_of_eq (toBeBytes_length _).symm),
      List.take_of_length_le (Nat.le_of_eq (toBeBytes_length _)), fromBeBytes_toBeBytes]
  have body : (flag :: (toBeBytes length ++ payload)).drop 5 = payload := by
    rw [List.drop_succ_cons, List.drop_append_of_le_length (Nat.le_of_eq (toBeBytes_length _).symm),
      List.drop_eq_nil_of_le (Nat.le_of_eq (toBeBytes_length _)), List.nil_append]
  have long : ¬ (flag :: (toBeBytes length ++ payload)).length < 5 := by
    simp only [List.length_cons, List.length_append, toBeBytes_length]
    omega
  unfold decodeMessage
  rw [if_neg long]
  simp only [declared, body]
  rw [if_neg (by omega), if_neg (by omega)]
  rfl

/-- What is taken off the front of a frame, however long its payload really is. -/
theorem takeFrame_framed {wording : Wording} {encoding : Compression} {max : Nat}
    (admitted : payload.length % 2 ^ 32 ≤ max) :
    takeFrame codec wording encoding max (framed flag payload ++ rest) =
      match decodeMessage codec (flag :: (toBeBytes (UInt32.ofNat payload.length) ++
        payload.take (payload.length % 2 ^ 32))) encoding max with
      | .ok raw => some (.ok raw, payload.drop (payload.length % 2 ^ 32) ++ rest)
      | .error e => some (.error (.new .internal (wording.undecodable e)),
          payload.drop (payload.length % 2 ^ 32) ++ rest) := by
  have short : payload.length % 2 ^ 32 ≤ payload.length := Nat.mod_le _ _
  have length : (framed flag payload ++ rest).length = 5 + payload.length + rest.length := by
    simp only [framed, List.length_append, List.length_cons, toBeBytes_length]
    omega
  obtain ⟨front, back⟩ := split_framed flag payload rest _ short
  unfold takeFrame
  rw [if_pos (by omega), declaredLength_framed]
  simp only
  rw [if_neg (by omega), if_pos (by omega)]
  simp only [front, back]

end Take

section Decode

variable {encoding : Compression} {max : Nat} {message : List UInt8}

private theorem decode_fitting (lossless : codec.Lossless)
    (known : encoding = .identity ∨ encoding = .gzip) (short : message.length ≤ max)
    (fits : PayloadFits codec encoding max message) :
    decodeMessage codec (wireFlag encoding ::
      (toBeBytes (UInt32.ofNat (wirePayload codec encoding message).length) ++
        wirePayload codec encoding message)) encoding max = .ok message := by
  have counted : (wirePayload codec encoding message).length =
      (UInt32.ofNat (wirePayload codec encoding message).length).toNat := by
    rw [UInt32.toNat_ofNat', Nat.mod_eq_of_lt fits.counted]
  rw [decodeMessage_frame codec counted fits.admitted]
  rcases known with rfl | rfl
  · rfl
  · have bounded : ¬ message.length > max := by omega
    simp [wireFlag, wirePayload, compressionFlagUncompressed, compressionFlagCompressed,
      Compression.decompress, lossless message, bounded, bind, Except.bind]

/-- A payload whose length wraps around is cut short, and never read as its message. -/
private theorem decode_wrapped (truncation : codec.DetectsTruncation)
    (known : encoding = .identity ∨ encoding = .gzip)
    (wrapped : 2 ^ 32 ≤ (wirePayload codec encoding message).length)
    (admitted : (wirePayload codec encoding message).length % 2 ^ 32 ≤ max) :
    decodeMessage codec (wireFlag encoding ::
      (toBeBytes (UInt32.ofNat (wirePayload codec encoding message).length) ++
        (wirePayload codec encoding message).take
          ((wirePayload codec encoding message).length % 2 ^ 32))) encoding max ≠ .ok message := by
  have shorter : (wirePayload codec encoding message).length % 2 ^ 32 <
      (wirePayload codec encoding message).length :=
    Nat.lt_of_lt_of_le (Nat.mod_lt _ (by decide)) wrapped
  have cut : ((wirePayload codec encoding message).take
      ((wirePayload codec encoding message).length % 2 ^ 32)).length =
      (UInt32.ofNat (wirePayload codec encoding message).length).toNat := by
    rw [UInt32.toNat_ofNat', List.length_take, Nat.min_eq_left (Nat.le_of_lt shorter)]
  rw [decodeMessage_frame codec cut (by rw [cut, UInt32.toNat_ofNat']; exact admitted)]
  rcases known with rfl | rfl
  · intro same
    have cutMessage : message.take (message.length % 2 ^ 32) = message := by
      simpa [wireFlag, wirePayload] using same
    have length := congrArg List.length cutMessage
    rw [List.length_take] at length
    simp only [wirePayload] at shorter
    omega
  · obtain ⟨text, failed⟩ := truncation message _ shorter
    simp only [wirePayload, wireFlag] at failed ⊢
    simp only [Compression.decompress, failed, bind, Except.bind]
    exact nofun

end Decode

section Frames

variable (wording : Wording) {encoding : Compression} {max : Nat} (finish : List UInt8 → Option Status)

/-- A frame whose payload fits is read as its message. -/
private theorem take_fitting (lossless : codec.Lossless) {message frame : List UInt8}
    (rest : List UInt8) (encoded : encodeMessage codec message encoding max = .ok frame)
    (fits : PayloadFits codec encoding max message) :
    (deframing codec wording encoding max).take (frame ++ rest) = some (.ok message, rest) := by
  obtain ⟨short, known, rfl⟩ := encodeMessage_eq_ok codec encoded
  have same : (wirePayload codec encoding message).length % 2 ^ 32 =
      (wirePayload codec encoding message).length := Nat.mod_eq_of_lt fits.counted
  rw [deframing_take, takeFrame_framed codec _ _ rest (by rw [same]; exact fits.admitted), same,
    List.take_length, List.drop_length, List.nil_append,
    decode_fitting codec lossless known short fits]

/-- Any other frame is refused or read as something else. -/
private theorem take_large (truncation : codec.DetectsTruncation) {message frame : List UInt8}
    (rest : List UInt8) (encoded : encodeMessage codec message encoding max = .ok frame)
    (large : ¬ PayloadFits codec encoding max message) :
    ∃ item rest', (deframing codec wording encoding max).take (frame ++ rest) =
      some (item, rest') ∧ item ≠ .ok message := by
  obtain ⟨short, known, rfl⟩ := encodeMessage_eq_ok codec encoded
  rw [deframing_take]
  by_cases admitted : (wirePayload codec encoding message).length % 2 ^ 32 ≤ max
  · rw [takeFrame_framed codec _ _ rest admitted]
    have wrapped : 2 ^ 32 ≤ (wirePayload codec encoding message).length := by
      apply Nat.le_of_not_lt
      intro counted
      rw [Nat.mod_eq_of_lt counted] at admitted
      exact large ⟨admitted, counted⟩
    have different := decode_wrapped codec truncation known wrapped admitted
    split
    · rename_i raw decoded
      refine ⟨_, _, rfl, ?_⟩
      intro same
      cases same
      exact different decoded
    · refine ⟨_, _, rfl, ?_⟩
      rintro ⟨⟩
  · unfold takeFrame
    rw [if_pos (by simp only [framed, List.length_append, List.length_cons, toBeBytes_length]; omega),
      declaredLength_framed]
    simp only
    rw [if_pos (by omega)]
    refine ⟨_, _, rfl, ?_⟩
    rintro ⟨⟩

omit finish in
/-- Two readers take the same bytes, and refuse with the same code. -/
private theorem takeFrame_wording (wording' : Wording) (encoding : Compression) (max : Nat)
    (buf : List UInt8) :
    match takeFrame codec wording encoding max buf with
    | none => takeFrame codec wording' encoding max buf = none
    | some (.ok raw, rest) => takeFrame codec wording' encoding max buf = some (.ok raw, rest)
    | some (.error status, rest) => ∃ status',
        takeFrame codec wording' encoding max buf = some (.error status', rest) ∧
          status.code = status'.code := by
  unfold takeFrame
  by_cases header : 5 ≤ buf.length
  · rw [if_pos header, if_pos header]
    by_cases large : declaredLength buf > max
    · simp only [if_pos large]
      exact ⟨_, rfl, rfl⟩
    · simp only [if_neg large]
      by_cases complete : 5 + declaredLength buf ≤ buf.length
      · simp only [if_pos complete]
        cases decodeMessage codec (buf.take (5 + declaredLength buf)) encoding max with
        | ok raw => rfl
        | error e => exact ⟨_, rfl, rfl⟩
      · simp only [if_neg complete]
  · rw [if_neg header, if_neg header]

/-- All messages come out if every payload fits. -/
theorem parse_encoded (lossless : codec.Lossless) {messages : List (List UInt8)}
    {bytes : List UInt8} (encoded : Encoded codec encoding max messages bytes)
    (fits : ∀ message ∈ messages, PayloadFits codec encoding max message) :
    (deframing codec wording encoding max).parse finish bytes = (messages, finish []) := by
  induction encoded with
  | nil => exact (deframing codec wording encoding max).parse_none finish rfl
  | @cons message _ rest _ frame _ inductionHypothesis =>
    have here := take_fitting codec wording lossless rest frame (fits message List.mem_cons_self)
    rw [(deframing codec wording encoding max).parse_ok finish here,
      inductionHypothesis fun other member => fits other (List.mem_cons_of_mem _ member)]

/-- If all messages come out, every payload fits. -/
theorem fits_of_parse (lossless : codec.Lossless) (truncation : codec.DetectsTruncation)
    {messages : List (List UInt8)} {bytes : List UInt8} {ending : Option Status}
    (encoded : Encoded codec encoding max messages bytes)
    (parsed : (deframing codec wording encoding max).parse finish bytes = (messages, ending)) :
    ∀ message ∈ messages, PayloadFits codec encoding max message := by
  induction encoded with
  | nil => nofun
  | @cons message _ rest messages frame _ inductionHypothesis =>
    by_cases fits : PayloadFits codec encoding max message
    · have here := take_fitting codec wording lossless rest frame fits
      rw [(deframing codec wording encoding max).parse_ok finish here] at parsed
      simp only [Prod.mk.injEq, List.cons.injEq, true_and] at parsed
      intro other member
      rcases List.mem_cons.mp member with rfl | later
      · exact fits
      · exact inductionHypothesis (Prod.ext parsed.1 parsed.2) other later
    · obtain ⟨item, rest', taken, different⟩ := take_large codec wording truncation rest frame fits
      cases item with
      | ok raw =>
        rw [(deframing codec wording encoding max).parse_ok finish taken] at parsed
        simp only [Prod.mk.injEq, List.cons.injEq] at parsed
        rw [parsed.1.1] at different
        exact (different rfl).elim
      | error status =>
        rw [(deframing codec wording encoding max).parse_error finish taken] at parsed
        cases parsed

/-- The wording of errors and the judgement of the end do not change what is read. -/
theorem parse_wording (wording' : Wording) (encoding : Compression) (max : Nat)
    (finish' : List UInt8 → Option Status) (bytes : List UInt8) :
    ((deframing codec wording encoding max).parse finish bytes).1 =
        ((deframing codec wording' encoding max).parse finish' bytes).1 ∧
      ((∃ status status',
          ((deframing codec wording encoding max).parse finish bytes).2 = some status ∧
          ((deframing codec wording' encoding max).parse finish' bytes).2 = some status' ∧
          status.code = status'.code) ∨
        ∃ left, ((deframing codec wording encoding max).parse finish bytes).2 = finish left ∧
          ((deframing codec wording' encoding max).parse finish' bytes).2 = finish' left) := by
  induction length : bytes.length using Nat.strongRecOn generalizing bytes with
  | ind length' inductionHypothesis =>
    have same := takeFrame_wording codec wording wording' encoding max bytes
    cases taken : takeFrame codec wording encoding max bytes with
    | none =>
      rw [taken] at same
      rw [Framing.parse_none _ finish taken, Framing.parse_none _ finish' same]
      exact ⟨rfl, .inr ⟨bytes, rfl, rfl⟩⟩
    | some found =>
      obtain ⟨item, rest⟩ := found
      rw [taken] at same
      cases item with
      | ok raw =>
        rw [Framing.parse_ok _ finish taken, Framing.parse_ok _ finish' same]
        have fewer : rest.length < length' := by
          rw [← length]
          exact (deframing codec wording encoding max).shorter taken
        obtain ⟨values, endings⟩ := inductionHypothesis rest.length fewer rest rfl
        exact ⟨congrArg (raw :: ·) values, endings⟩
      | error status =>
        obtain ⟨status', same, code⟩ := same
        rw [Framing.parse_error _ finish taken, Framing.parse_error _ finish' same]
        exact ⟨rfl, .inl ⟨status, status', rfl, rfl, code⟩⟩

end Frames

/-- What holds of every body: its chunks do not show, and both readers see the same. -/
structure SameReading (base64 : Base64) (encoding : Compression) (max : Nat)
    (trailers : Option HeaderMap) (chunks : List (List UInt8)) : Prop where
  server : DeframeStream.messages codec encoding max chunks =
    DeframeStream.messages codec encoding max [chunks.flatten]
  client : GrpcResponseBody.messages codec base64 encoding max trailers chunks =
    GrpcResponseBody.messages codec base64 encoding max trailers [chunks.flatten]
  messages : (DeframeStream.messages codec encoding max chunks).1 =
    (GrpcResponseBody.messages codec base64 encoding max trailers chunks).1
  failed : ∀ status, (DeframeStream.messages codec encoding max chunks).2 = some status →
    ∃ status', (GrpcResponseBody.messages codec base64 encoding max trailers chunks).2 =
      some status' ∧ status'.code = status.code
  ended : (DeframeStream.messages codec encoding max chunks).2 = none →
    (GrpcResponseBody.messages codec base64 encoding max trailers chunks).2 =
      GrpcResponseBody.terminalStatus base64 trailers

/-- Both readers yield these messages and then the end of the body. -/
structure Delivered (base64 : Base64) (encoding : Compression) (max : Nat)
    (trailers : Option HeaderMap) (chunks messages : List (List UInt8)) : Prop where
  server : DeframeStream.messages codec encoding max chunks = (messages, none)
  client : GrpcResponseBody.messages codec base64 encoding max trailers chunks =
    (messages, GrpcResponseBody.terminalStatus base64 trailers)

section Readers

variable (base64 : Base64) (encoding : Compression) (max : Nat) (trailers : Option HeaderMap)
  (chunks : List (List UInt8))

theorem DeframeStream.messages_eq : DeframeStream.messages codec encoding max chunks =
    (deframing codec DeframeStream.wording encoding max).parse partialFrame chunks.flatten := by
  rw [DeframeStream.messages, Framing.drain_eq_parse, Source.remaining_ofChunks]

theorem GrpcResponseBody.messages_eq :
    GrpcResponseBody.messages codec base64 encoding max trailers chunks =
      (deframing codec GrpcResponseBody.wording encoding max).parse
        (GrpcResponseBody.finish base64 trailers) chunks.flatten := by
  rw [GrpcResponseBody.messages, Framing.drain_eq_parse, Source.remaining_ofChunks]

private theorem sameReading : SameReading codec base64 encoding max trailers chunks := by
  obtain ⟨messages, endings⟩ := parse_wording codec DeframeStream.wording partialFrame
    GrpcResponseBody.wording encoding max (GrpcResponseBody.finish base64 trailers) chunks.flatten
  refine ⟨?_, ?_, ?_, ?_, ?_⟩
  · rw [DeframeStream.messages_eq, DeframeStream.messages_eq, List.flatten_singleton]
  · rw [GrpcResponseBody.messages_eq, GrpcResponseBody.messages_eq, List.flatten_singleton]
  · rw [DeframeStream.messages_eq, GrpcResponseBody.messages_eq, messages]
  · intro status failed
    rw [DeframeStream.messages_eq] at failed
    rw [GrpcResponseBody.messages_eq]
    rcases endings with ⟨server, client, serverFailed, clientFailed, code⟩ | ⟨left, server, client⟩
    · rw [failed] at serverFailed
      cases serverFailed
      exact ⟨client, clientFailed, code.symm⟩
    · rw [failed] at server
      refine ⟨status, ?_, rfl⟩
      rw [client, GrpcResponseBody.finish, ← server]
  · intro ended
    rw [DeframeStream.messages_eq] at ended
    rw [GrpcResponseBody.messages_eq]
    rcases endings with ⟨server, _, serverFailed, _⟩ | ⟨left, server, client⟩
    · rw [ended] at serverFailed
      cases serverFailed
    · rw [client, GrpcResponseBody.finish, ← server, ended]

end Readers

/-- Chunks never show and both readers agree. The frames of an encoder with the reader's
compression and maximum come out as its messages exactly when every payload, compressed as
it is sent, is within the maximum and below four gigabytes. -/
theorem deframing_iff (lossless : codec.Lossless) (truncation : codec.DetectsTruncation)
    (base64 : Base64) (encoding : Compression) (max : Nat) (trailers : Option HeaderMap)
    (chunks : List (List UInt8)) :
    SameReading codec base64 encoding max trailers chunks ∧
      ∀ messages, Encoded codec encoding max messages chunks.flatten →
        (Delivered codec base64 encoding max trailers chunks messages ↔
          ∀ message ∈ messages, PayloadFits codec encoding max message) := by
  refine ⟨sameReading codec base64 encoding max trailers chunks, ?_⟩
  intro messages encoded
  constructor
  · intro delivered
    have server := delivered.server
    rw [DeframeStream.messages_eq] at server
    exact fits_of_parse codec DeframeStream.wording partialFrame lossless truncation encoded server
  · intro fits
    constructor
    · rw [DeframeStream.messages_eq]
      exact parse_encoded codec DeframeStream.wording partialFrame lossless encoded fits
    · rw [GrpcResponseBody.messages_eq]
      exact parse_encoded codec GrpcResponseBody.wording (GrpcResponseBody.finish base64 trailers)
        lossless encoded fits

private theorem encoded_two : Encoded sampleGzip .identity 4 [[7], [8, 9]]
    [0, 0, 0, 0, 1, 7, 0, 0, 0, 0, 2, 8, 9] := by
  apply sequence_cons_iff.mpr
  refine ⟨[0, 0, 0, 0, 1, 7], [0, 0, 0, 0, 2, 8, 9], rfl, rfl, ?_⟩
  exact Sequence.single rfl

/-- Two messages in three chunks, one of them empty. -/
theorem deframing_two : Delivered sampleGzip (fun _ => .ok []) .identity 4 none
    [[0, 0, 0], [], [0, 1, 7, 0, 0, 0, 0, 2, 8, 9]] [[7], [8, 9]] := by
  apply ((deframing_iff sampleGzip SampleGzip.lossless SampleGzip.detectsTruncation _ _ _ _ _).2 _
    encoded_two).mpr
  intro message member
  have short : message.length ≤ 2 := by
    revert message
    decide
  have sent : wirePayload sampleGzip .identity message = message := rfl
  exact ⟨by rw [sent]; omega, by rw [sent]; omega⟩

/-- A one-byte message is within a maximum of one, but its gzip stream is not. -/
theorem not_deframing_gzip :
    ∃ frame, encodeMessage sampleGzip [97] .gzip 1 = .ok frame ∧
      DeframeStream.messages sampleGzip .gzip 1 [frame] ≠ ([[97]], none) := by
  refine ⟨_, rfl, ?_⟩
  rw [DeframeStream.messages_eq, Framing.parse_error _ _ rfl]
  decide

section Frame

variable {compression : Compression} {max : Nat} {message frame : List UInt8}

/-- A frame declares the length of its payload, and a receiver with the limit of the sender
reads the message in it. -/
structure FrameTrips (compression : Compression) (max : Nat) (message frame : List UInt8) : Prop where
  counted : declaredLength frame = (frame.drop 5).length
  read : decodeMessage codec frame compression max = .ok message

private theorem framed_declares (flag : UInt8) (payload : List UInt8) :
    declaredLength (framed flag payload) = payload.length % 2 ^ 32 ∧
      (framed flag payload).drop 5 = payload := by
  have declared := declaredLength_framed flag payload []
  have split := (split_framed flag payload [] 0 (Nat.zero_le _)).2
  rw [List.append_nil] at declared split
  exact ⟨declared, by simpa using split⟩

private theorem declared_le_of_decoded
    (read : decodeMessage codec frame compression max = .ok message) :
    declaredLength frame ≤ max := by
  apply Nat.le_of_not_lt
  intro large
  unfold decodeMessage at read
  split at read
  · cases read
  · simp only [if_pos (show declaredLength frame > max from large)] at read
    cases read

/-- A frame that is sent under a limit is read under it exactly when the payload, compressed as
it is, keeps to the limit as well, and its length to 32 bits. -/
theorem frame_trips_iff (lossless : codec.Lossless)
    (encoded : encodeMessage codec message compression max = .ok frame) :
    FrameTrips codec compression max message frame ↔ PayloadFits codec compression max message := by
  obtain ⟨short, known, rfl⟩ := encodeMessage_eq_ok codec encoded
  obtain ⟨declared, payload⟩ := framed_declares (wireFlag compression)
    (wirePayload codec compression message)
  constructor
  · intro trips
    have same := trips.counted
    have admitted := declared_le_of_decoded codec trips.read
    rw [payload, declared] at same
    rw [declared, same] at admitted
    refine ⟨admitted, ?_⟩
    rw [← same]
    exact Nat.mod_lt _ (by decide)
  · intro fits
    refine ⟨?_, decode_fitting codec lossless known short fits⟩
    rw [declared, payload, Nat.mod_eq_of_lt fits.counted]

/-- The gzip stream of one byte keeps to a limit of 21 bytes. -/
theorem frame_trips_a : FrameTrips sampleGzip .gzip 21 [97]
    (framed compressionFlagCompressed SampleGzip.streamOfA) :=
  (frame_trips_iff sampleGzip SampleGzip.lossless rfl).mpr ⟨by decide, by decide⟩

/-- Under a limit of one byte it is sent, and refused. -/
theorem not_frame_trips : ¬ ∀ frame, encodeMessage sampleGzip [97] .gzip 1 = .ok frame →
    FrameTrips sampleGzip .gzip 1 [97] frame := by
  intro trips
  have admitted := declared_le_of_decoded sampleGzip (trips _ rfl).read
  revert admitted
  decide

end Frame

end TptProto.Grpc
