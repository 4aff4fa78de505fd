import TptProto.Grpc.Deframe
import TptProto.Grpc.Codec

/-! Polling the two readers of HTTP/2 bodies, over bodies that fail or make the reader wait. -/

namespace TptProto.Grpc

open TptProto.Core TptProto.Foundation

/-- What `poll_data` answers while the body has not ended. -/
inductive DataAnswer where
  | chunk (bytes : List UInt8)
  | failed (error : String)
  | pending
  deriving DecidableEq, Repr

inductive Poll (α : Type) where
  | pending
  | ready (value : α)

/-- What a reader of messages yields: an item, or the end. -/
abbrev Polled := Poll (Option (Except Status (List UInt8)))

/-- The buffer, whether the end has been seen, and the answers still to come. Behind the last
one the body has ended. -/
structure Buffered where
  buf : List UInt8 := []
  eof : Bool := false
  body : List DataAnswer
  deriving DecidableEq, Repr

variable (codec : GzipCodec)

/-- The loop of both readers up to the end of the body, where they part. -/
def pollBuffered (wording : Wording) (encoding : Compression) (max : Nat) (eof : Bool) :
    List UInt8 → List DataAnswer → Option Polled × Buffered
  | buf, body =>
    match takeFrame codec wording encoding max buf with
    | some (item, rest) => (some (.ready (some item)), ⟨rest, eof, body⟩)
    | none =>
      if eof then (none, ⟨buf, eof, body⟩)
      else
        match body with
        | [] => (none, ⟨buf, true, []⟩)
        | .chunk chunk :: more => pollBuffered wording encoding max eof (buf ++ chunk) more
        | .failed error :: more =>
          (some (.ready (some (.error (.new .internal s!"h2 body error: {error}")))),
            ⟨buf, eof, more⟩)
        | .pending :: more => (some .pending, ⟨buf, eof, more⟩)

/-- A reader with what it keeps for the end of the body. -/
structure BodyReader (ρ : Type) where
  data : Buffered
  closing : ρ

/-- One poll of a reader that answers like this behind the last frame. -/
def pollWith {ρ : Type} (close : ρ → List UInt8 → Polled × ρ) (wording : Wording)
    (encoding : Compression) (max : Nat) (self : BodyReader ρ) : Polled × BodyReader ρ :=
  match pollBuffered codec wording encoding max self.data.eof self.data.buf self.data.body with
  | (some polled, data) => (polled, { self with data })
  | (none, data) =>
    let (polled, closing) := close self.closing data.buf
    (polled, ⟨data, closing⟩)

/-- A reader of a new body. -/
def BodyReader.new {ρ : Type} (body : List DataAnswer) (closing : ρ) : BodyReader ρ := ⟨{ body }, closing⟩

namespace DeframeStream

def close (_ : Unit) (buf : List UInt8) : Polled × Unit :=
  (.ready ((partialFrame buf).map .error), ())

/-- `DeframeStream::poll_next`. -/
def poll (encoding : Compression) (max : Nat) : BodyReader Unit → Polled × BodyReader Unit :=
  pollWith codec close wording encoding max

end DeframeStream

namespace GrpcResponseBody

/-- What `poll_trailers` will answer: that it is pending, so often, and then the trailers, or that
there are none. -/
structure Trailing where
  pendings : Nat := 0
  trailers : Option HeaderMap := none
  trailersChecked : Bool := false
  terminalStatus : Option Status := none
  deriving DecidableEq, Repr

variable (base64 : Base64)

/-- The trailers are looked at once. -/
def close (self : Trailing) (buf : List UInt8) : Polled × Trailing :=
  match partialFrame buf with
  | some status => (.ready (some (.error status)), self)
  | none =>
    if self.trailersChecked then (.ready none, self)
    else
      let self := { self with trailersChecked := true }
      match self.pendings with
      | pendings + 1 => (.pending, { self with pendings })
      | 0 =>
        match terminalStatus base64 self.trailers with
        | some status =>
          (.ready (some (.error status)), { self with terminalStatus := some status })
        | none => (.ready none, self)

/-- `GrpcResponseBody::poll_next`. -/
def poll (encoding : Compression) (max : Nat) : BodyReader Trailing → Polled × BodyReader Trailing :=
  pollWith codec (close base64) wording encoding max

end GrpcResponseBody

section Chunks

variable {wording : Wording} {encoding : Compression} {max : Nat}

end Chunks

end TptProto.Grpc
