import TptProto.Core.Table
import TptProto.Foundation.Decimal
import TptProto.Grpc.Metadata

/-! Status codes, and the status that response trailers carry. -/

namespace TptProto.Grpc

open TptProto.Core TptProto.Foundation

inductive Code where
  | ok
  | cancelled
  | unknown
  | invalidArgument
  | deadlineExceeded
  | notFound
  | alreadyExists
  | permissionDenied
  | resourceExhausted
  | failedPrecondition
  | aborted
  | outOfRange
  | unimplemented
  | internal
  | unavailable
  | dataLoss
  | unauthenticated
  deriving DecidableEq, Repr

namespace Code

def fromI32 : Int → Code
  | 0 => ok
  | 1 => cancelled
  | 2 => unknown
  | 3 => invalidArgument
  | 4 => deadlineExceeded
  | 5 => notFound
  | 6 => alreadyExists
  | 7 => permissionDenied
  | 8 => resourceExhausted
  | 9 => failedPrecondition
  | 10 => aborted
  | 11 => outOfRange
  | 12 => unimplemented
  | 13 => internal
  | 14 => unavailable
  | 15 => dataLoss
  | 16 => unauthenticated
  | _ => unknown

def asI32 : Code → Int
  | ok => 0
  | cancelled => 1
  | unknown => 2
  | invalidArgument => 3
  | deadlineExceeded => 4
  | notFound => 5
  | alreadyExists => 6
  | permissionDenied => 7
  | resourceExhausted => 8
  | failedPrecondition => 9
  | aborted => 10
  | outOfRange => 11
  | unimplemented => 12
  | internal => 13
  | unavailable => 14
  | dataLoss => 15
  | unauthenticated => 16

@[simp] theorem fromI32_asI32 (code : Code) : fromI32 code.asI32 = code := by
  cases code <;> rfl

/-- Only zero stands for success. -/
theorem fromI32_eq_ok_iff {n : Int} : fromI32 n = ok ↔ n = 0 := by
  constructor
  · intro same
    unfold fromI32 at same
    split at same <;> first | rfl | cases same
  · rintro rfl
    rfl

end Code

/-- `google.protobuf.Any`. -/
structure Any where
  typeUrl : String := ""
  value : List UInt8 := []
  deriving DecidableEq, Repr

structure Status where
  code : Code
  message : String
  details : List Any
  metadata : Metadata
  deriving DecidableEq, Repr

def Status.new (code : Code) (message : String) : Status := ⟨code, message, [], {}⟩

def Status.isOk (status : Status) : Bool := status.code = .ok

@[simp] theorem Status.new_code (code : Code) (message : String) :
    (Status.new code message).code = code := rfl

/-- `google.rpc.Status`. -/
structure RpcStatus where
  code : Code := .ok
  message : String := ""
  details : List Any := []

namespace RpcStatus

inductive Kind where
  | status
  | any
  deriving DecidableEq, Repr

abbrev Kind.Data : Kind → Type
  | status => RpcStatus
  | any => Any

def Kind.start : (kind : Kind) → kind.Data
  | status => {}
  | any => {}

/-- These arms take any wire type. -/
def arms (number : UInt32) (_ : WireType) : Option (Arm Kind.Data RpcStatus) :=
  match number.toNat with
  | 1 => some (.int32 fun code self => { self with code := Code.fromI32 code.toInt })
  | 2 => some (.string fun message self => { self with message })
  | 3 =>
    some (.message .fresh .any fun (any : Any) self =>
      { self with details := self.details ++ [any] })
  | _ => none

def anyArms (number : UInt32) (wireType : WireType) : Option (Arm Kind.Data Any) :=
  match number.toNat, wireType with
  | 1, .lengthDelimited => some (.string fun typeUrl self => { self with typeUrl })
  | 2, .lengthDelimited => some (.bytes fun value self => { self with value })
  | _, _ => none

def table : Table where
  Kind := Kind
  Data := Kind.Data
  start := Kind.start
  arms
    | .status => arms
    | .any => anyArms

end RpcStatus

def Any.encode (self : Any) : Core.Result (List UInt8) := do
  let typeUrl ← encodeString 1 self.typeUrl
  let value ← encodeBytes 2 self.value
  .ok (typeUrl ++ value)

/-- One turn of the loop over the details. `expect` panics on an error. -/
def encodeDetail (d : Any) : Outcome Empty (List UInt8) :=
  match d.encode with
  | .ok dbytes => do
    let tag ← writeTag 3 .lengthDelimited
    .ok (tag ++ writeLengthDelimited dbytes)
  | _ => .panic

def encodeGoogleRpcStatus (code : Code) (message : String) (details : List Any) :
    Outcome Empty (List UInt8) := do
  let code ← encodeInt32 1 (Int32.ofInt code.asI32)
  let message ← if message = "" then .ok [] else encodeString 2 message
  let details ← writeEach encodeDetail details
  .ok (code ++ message ++ details)

def decodeGoogleRpcStatus (bytes : List UInt8) : Core.Result RpcStatus :=
  RpcStatus.table.decode .status (Reader.new (Slice.ofBytes bytes))

namespace Status

/-- The code a trailer block spells out, or `unknown`. -/
def trailersCode (trailers : Metadata) : Code :=
  match (trailers.getText "grpc-status").bind (Decimal.parseInt (2 ^ 31)) with
  | some n => Code.fromI32 n
  | none => .unknown

/-- A code that was written is read. -/
theorem trailersCode_eq {trailers : Metadata} {code : Code}
    (found : trailers.getBinary "grpc-status" = some (asBytes (toString code.asI32))) :
    trailersCode trailers = code := by
  have text : trailers.getText "grpc-status" = some (toString code.asI32) := by
    have bound : trailers.getText "grpc-status" =
        (trailers.getBinary "grpc-status").bind fromUtf8 := rfl
    rw [bound, found, Option.bind_some, fromUtf8_asBytes]
  have parsed : Decimal.parseInt (2 ^ 31) (toString code.asI32) = some code.asI32 := by
    refine (Decimal.parseInt_eq_some (by decide)).mpr ⟨Decimal.numeral?_toString _, ?_⟩
    cases code <;> decide
  rw [trailersCode, text, Option.bind_some, parsed]
  exact Code.fromI32_asI32 code

def fromTrailers (trailers : Metadata) : Status where
  code := trailersCode trailers
  message := (trailers.getText "grpc-message").getD ""
  details :=
    match (trailers.getBinary "grpc-status-details-bin").map decodeGoogleRpcStatus with
    | some (.ok status) => status.details
    | _ => []
  metadata := trailers

/-- One turn of the loop over the metadata of a status. -/
def forward (metadata m : Metadata) (key : String) : Metadata :=
  if startsWith key "grpc-" then m
  else
    match metadata.getBinary key with
    | some v => m.insertRaw key v
    | none => m

def toTrailers (self : Status) : Outcome Empty Metadata := do
  let m := ({} : Metadata).insertRaw "grpc-status" (asBytes (toString self.code.asI32))
  let m := if self.message = "" then m else m.insertRaw "grpc-message" (asBytes self.message)
  let m ←
    if self.details = [] then .ok m
    else do
      let bytes ← encodeGoogleRpcStatus self.code self.message self.details
      .ok (m.insertRaw "grpc-status-details-bin" bytes)
  .ok (self.metadata.keys.foldl (forward self.metadata) m)

/-- The trailers of `finish_with_status`: the code and the message are set again. -/
def finishingTrailers (status : Status) : Outcome Empty Metadata := do
  let trailers ← status.toTrailers
  let trailers := trailers.insertRaw "grpc-status" (asBytes (toString status.code.asI32))
  .ok (if status.message = "" then trailers
    else trailers.insertRaw "grpc-message" (asBytes status.message))

end Status

end TptProto.Grpc
