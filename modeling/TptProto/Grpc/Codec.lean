import TptProto.Core.WireType

/-! Message frames: a compression flag, a big-endian length and the payload. -/

namespace TptProto.Grpc

open TptProto.Core

/-- The gzip encoder and decoder of the compression library. A failed read is its text. -/
structure GzipCodec where
  encode : List UInt8 → List UInt8
  decode : List UInt8 → Except String (List UInt8)

/-- What was compressed is read back. -/
def GzipCodec.Lossless (gzip : GzipCodec) : Prop :=
  ∀ data, gzip.decode (gzip.encode data) = .ok data

/-- A gzip stream that is cut short is an unexpected end of file. -/
def GzipCodec.DetectsTruncation (gzip : GzipCodec) : Prop :=
  ∀ data n, n < (gzip.encode data).length →
    ∃ text, gzip.decode ((gzip.encode data).take n) = .error text

inductive Compression where
  | identity
  | gzip
  | other (name : String)
  deriving DecidableEq, Repr

namespace Compression

/-- `char::to_ascii_lowercase` over a string. -/
def toAsciiLowercase (text : String) : String :=
  String.ofList (text.toList.map fun c => if 'A' ≤ c ∧ c ≤ 'Z' then Char.ofNat (c.toNat + 32) else c)

def fromHeader (value : String) : Compression :=
  if value = "" ∨ value = "identity" then .identity
  else if value = "gzip" then .gzip
  else .other (toAsciiLowercase value)

def asHeader : Compression → String
  | identity => "identity"
  | gzip => "gzip"
  | other name => name

variable (codec : GzipCodec)

def compress (compression : Compression) (data : List UInt8) : Except String (List UInt8) :=
  match compression with
  | identity => .ok data
  | gzip => .ok (codec.encode data)
  | other _ => .error "unsupported compression algorithm"

/-- The reader is stopped one byte after `maxSize`, which the check below then refuses. -/
def decompress (compression : Compression) (data : List UInt8) (maxSize : Nat) :
    Except String (List UInt8) :=
  match compression with
  | identity => .ok data
  | gzip => do
    let out ← codec.decode data
    if out.length > maxSize then
      .error s!"decompressed message length exceeds maximum {maxSize}"
    else .ok out
  | other _ => .error "unsupported compression algorithm"

end Compression

def compressionFlagUncompressed : UInt8 := 0

def compressionFlagCompressed : UInt8 := 1

def maxMessageSizeDefault : Nat := 4 * 1024 * 1024

/-- `u32::to_be_bytes`. -/
def toBeBytes (value : UInt32) : List UInt8 := (writeFixed32 value).reverse

/-- `u32::from_be_bytes`. -/
def fromBeBytes (bytes : List UInt8) : UInt32 := fromLeBytes32 bytes.reverse

@[simp] theorem toBeBytes_length (value : UInt32) : (toBeBytes value).length = 4 := rfl

@[simp] theorem fromBeBytes_toBeBytes (value : UInt32) : fromBeBytes (toBeBytes value) = value := by
  simp [fromBeBytes, toBeBytes]

theorem toBeBytes_fromBeBytes {bytes : List UInt8} (width : bytes.length = 4) :
    toBeBytes (fromBeBytes bytes) = bytes := by
  rw [fromBeBytes, toBeBytes, writeFixed32_fromLeBytes32 (by rw [List.length_reverse, width]),
    List.reverse_reverse]

/-- A flag, the payload's length as a `u32`, and the payload. -/
def framed (flag : UInt8) (payload : List UInt8) : List UInt8 :=
  flag :: (toBeBytes (UInt32.ofNat payload.length) ++ payload)

theorem framed_length (flag : UInt8) (payload : List UInt8) :
    (framed flag payload).length = 5 + payload.length := by
  simp only [framed, List.length_cons, List.length_append, toBeBytes_length]
  omega

variable (codec : GzipCodec)

def encodeMessage (message : List UInt8) (compression : Compression) (maxMessageSize : Nat) :
    Except String (List UInt8) := do
  if message.length > maxMessageSize then
    .error s!"message length {message.length} exceeds maximum {maxMessageSize}"
  else
    let compressed ← compression.compress codec message
    .ok (if compression = .identity then framed compressionFlagUncompressed message
      else framed compressionFlagCompressed compressed)

/-- The length that bytes 1 to 4 of a frame declare. -/
def declaredLength (frame : List UInt8) : Nat := (fromBeBytes ((frame.drop 1).take 4)).toNat

def decodeMessage (frame : List UInt8) (encoding : Compression) (maxMessageSize : Nat) :
    Except String (List UInt8) := do
  if frame.length < 5 then
    .error s!"frame too short: {frame.length} bytes (minimum 5)"
  else
    let flag := frame.headD 0
    let declared := declaredLength frame
    let payload := frame.drop 5
    if declared > maxMessageSize then
      .error s!"declared message length {declared} exceeds maximum {maxMessageSize}"
    else if payload.length ≠ declared then
      .error s!"frame payload length {payload.length} does not match declared length {declared}"
    else if flag = compressionFlagUncompressed then .ok payload
    else if flag = compressionFlagCompressed then do
      let data ← encoding.decompress codec payload maxMessageSize
      if data.length > maxMessageSize then
        .error s!"decompressed message length {data.length} exceeds maximum {maxMessageSize}"
      else .ok data
    else .error s!"invalid compression flag {flag}"

end TptProto.Grpc

/-! A gzip codec for closed instances. On the one-byte text `a` it writes the stream that
the library writes; other data are escaped byte by byte behind a marker. -/

namespace TptProto.Grpc

namespace SampleGzip

/-- The library's stream for the text `a`: header, one deflate block, checksum, size. -/
def streamOfA : List UInt8 :=
  [0x1f, 0x8b, 8, 0, 0, 0, 0, 0, 0, 0xff, 0x4b, 4, 0, 0x43, 0xbe, 0xb7, 0xe8, 1, 0, 0, 0]

def escape : List UInt8 → List UInt8
  | [] => [0]
  | byte :: rest => 1 :: byte :: escape rest

def unescape : List UInt8 → Except String (List UInt8)
  | [0] => .ok []
  | 1 :: byte :: rest => (unescape rest).map (byte :: ·)
  | _ => .error "unexpected end of file"

def encode (data : List UInt8) : List UInt8 :=
  if data = [97] then streamOfA else 2 :: escape data

def decode (stream : List UInt8) : Except String (List UInt8) :=
  if stream = streamOfA then .ok [97]
  else match stream with
    | 2 :: rest => unescape rest
    | _ => .error "unexpected end of file"

end SampleGzip

def sampleGzip : GzipCodec := ⟨SampleGzip.encode, SampleGzip.decode⟩

namespace SampleGzip

private theorem unescape_escape (data : List UInt8) : unescape (escape data) = .ok data := by
  induction data with
  | nil => rfl
  | cons byte rest inductionHypothesis =>
    rw [escape, unescape, inductionHypothesis]
    rfl

private theorem unescape_take (data : List UInt8) (n : Nat) (short : n < (escape data).length) :
    ∃ text, unescape ((escape data).take n) = .error text := by
  induction data generalizing n with
  | nil =>
    have none : n = 0 := by
      simp only [escape, List.length_cons, List.length_nil] at short
      omega
    subst none
    exact ⟨_, rfl⟩
  | cons byte rest inductionHypothesis =>
    match n with
    | 0 => exact ⟨_, rfl⟩
    | 1 => exact ⟨_, rfl⟩
    | n + 2 =>
      simp only [escape, List.length_cons] at short
      obtain ⟨text, failed⟩ := inductionHypothesis n (by omega)
      refine ⟨text, ?_⟩
      simp only [escape, List.take_succ_cons, unescape, failed]
      rfl

theorem lossless : sampleGzip.Lossless := by
  intro data
  show decode (encode data) = .ok data
  unfold encode
  by_cases single : data = [97]
  · rw [if_pos single, single]
    rfl
  · rw [if_neg single]
    exact unescape_escape data

theorem detectsTruncation : sampleGzip.DetectsTruncation := by
  intro data n short
  show ∃ text, decode ((encode data).take n) = .error text
  replace short : n < (encode data).length := short
  unfold encode at short ⊢
  by_cases single : data = [97]
  · rw [if_pos single] at short ⊢
    have cut : (streamOfA.take n).length ≠ streamOfA.length := by
      rw [List.length_take]
      omega
    have different : streamOfA.take n ≠ streamOfA := fun same => cut (congrArg List.length same)
    unfold decode
    rw [if_neg different]
    match n with
    | 0 => exact ⟨_, rfl⟩
    | n + 1 => exact ⟨_, rfl⟩
  · rw [if_neg single] at short ⊢
    match n with
    | 0 => exact ⟨_, rfl⟩
    | n + 1 =>
      obtain ⟨text, failed⟩ := unescape_take data n (by
        rw [List.length_cons] at short
        omega)
      exact ⟨text, failed⟩

end SampleGzip

end TptProto.Grpc
