import TptProto.Core.TableWritten
import TptProto.Grpc.Status

/-! The hand-written codec of `google.rpc.Status`: which details it gives back. -/

namespace TptProto.Grpc

open TptProto.Core TptProto.Foundation

/-- The items of a message, written with the tags that their numbers have. -/
private def field (number : UInt32) (nonzero : number ≠ 0) (value : UnknownValue) : Core.Item :=
  ⟨⟨number, value.wireType, nonzero⟩, value⟩

def Any.items (any : Any) : List Core.Item :=
  [field 1 Tag.nonzero_one (.lengthDelimited (asBytes any.typeUrl)),
    field 2 Tag.nonzero_two (.lengthDelimited any.value)]

def Any.bytes (any : Any) : List UInt8 := any.items.flatMap Core.Item.written

namespace Status

variable (status : Status)

/-- The fields of the message that carries the details. -/
def rpcItems : List Core.Item :=
  field 1 Tag.nonzero_one (.varint (int32Word (Int32.ofInt status.code.asI32))) ::
    ((if status.message = "" then [] else
        [field 2 Tag.nonzero_two (.lengthDelimited (asBytes status.message))]) ++
      status.details.map fun any => field 3 Tag.nonzero_three (.lengthDelimited any.bytes))

def rpcBytes : List UInt8 := status.rpcItems.flatMap Core.Item.written

/-- What the default limits of a decoder ask of a status. -/
structure DetailsFit : Prop where
  message : (asBytes status.message).length ≤ 16 * 1024 * 1024
  details : ∀ any ∈ status.details, any.bytes.length ≤ 16 * 1024 * 1024
  total : status.rpcBytes.length ≤ 64 * 1024 * 1024
  fields : status.rpcItems.length ≤ 1000000

end Status

section Writing

private theorem field_written {ε : Type} (number : UInt32) (nonzero : number ≠ 0)
    (value : UnknownValue) :
    writeValue (ε := ε) number value = .ok (field number nonzero value).written := by
  rw [writeValue, writeTag_eq nonzero]
  rfl

theorem Any.encode_eq (any : Any) : any.encode = .ok any.bytes := by
  have typeUrl : encodeString 1 any.typeUrl =
      writeValue (ε := Error) 1 (.lengthDelimited (asBytes any.typeUrl)) := rfl
  have value : encodeBytes 2 any.value =
      writeValue (ε := Error) 2 (.lengthDelimited any.value) := rfl
  rw [Any.encode, typeUrl, value, field_written 1 (by decide), field_written 2 (by decide)]
  simp [Any.bytes, Any.items]

private theorem encodeDetail_eq (any : Any) :
    encodeDetail any = .ok (field 3 (by decide) (.lengthDelimited any.bytes)).written := by
  rw [encodeDetail, Any.encode_eq]
  exact field_written 3 (by decide) (.lengthDelimited any.bytes)

private theorem writeEach_details (details : List Any) :
    writeEach encodeDetail details = .ok ((details.map fun any =>
      field 3 (by decide) (.lengthDelimited any.bytes)).flatMap Core.Item.written) := by
  induction details with
  | nil => rfl
  | cons any rest inductionHypothesis =>
    simp only [writeEach, encodeDetail_eq, inductionHypothesis, Outcome.ok_bind, List.map_cons,
      List.flatMap_cons]

/-- A status is always encoded. -/
theorem encodeGoogleRpcStatus_eq (status : Status) :
    encodeGoogleRpcStatus status.code status.message status.details = .ok status.rpcBytes := by
  have code : encodeInt32 1 (Int32.ofInt status.code.asI32) =
      writeValue (ε := Empty) 1 (.varint (int32Word (Int32.ofInt status.code.asI32))) := rfl
  have message : encodeString 2 status.message =
      writeValue (ε := Empty) 2 (.lengthDelimited (asBytes status.message)) := rfl
  rw [encodeGoogleRpcStatus, code, message, field_written 1 (by decide),
    field_written 2 (by decide), writeEach_details]
  unfold Status.rpcBytes Status.rpcItems
  split <;> simp

end Writing

section Reading

private theorem new_rest {bytes : List UInt8} (short : bytes.length < 2 ^ 63) :
    (Reader.new (.ofBytes bytes)).rest = bytes := by
  simp only [Reader.rest, Reader.new, Reader.withLimits, List.drop_zero, Slice.bytes_ofBytes short]

/-- The default limits on items. -/
private structure Affordable (items : List Core.Item) : Prop where
  lengths : ∀ item ∈ items, item.value.payload.length ≤ 16 * 1024 * 1024
  total : (items.flatMap Core.Item.written).length ≤ 64 * 1024 * 1024
  fields : items.length ≤ 1000000

private theorem affords_iff {items : List Core.Item} {r : Reader} (start : r.AtStart)
    (limits : r.limits = .default) (rest : r.rest = items.flatMap Core.Item.written) :
    Affords r items ↔ Affordable items := by
  have fits : ∀ value : UnknownValue, value.Fits .default ↔
      value.payload.length ≤ 16 * 1024 * 1024 := by
    intro value
    cases value <;>
      simp [UnknownValue.Fits, UnknownValue.payload, DecoderLimits.within, DecoderLimits.default]
  have total : DecoderLimits.within r.limits.maxBytes (r.bytesRead + r.rest.length) = true ↔
      (items.flatMap Core.Item.written).length ≤ 64 * 1024 * 1024 := by
    rw [limits, start.bytesRead, rest, Nat.zero_add]
    exact decide_eq_true_iff
  have fields : DecoderLimits.within r.limits.maxFields (r.fieldCount + items.length * 1) = true ↔
      items.length ≤ 1000000 := by
    rw [limits, start.fieldCount, Nat.zero_add, Nat.mul_one]
    exact decide_eq_true_iff
  constructor
  · rintro ⟨each, bytes, count⟩
    refine ⟨fun item member => (fits _).mp ?_, total.mp bytes, fields.mp count⟩
    rw [← limits]
    exact each item member
  · rintro ⟨lengths, bytes, count⟩
    refine ⟨fun item member => ?_, total.mpr bytes, fields.mpr count⟩
    rw [limits]
    exact (fits _).mpr (lengths item member)

/-- Fields that arms take are decoded exactly within the limits and to what they do in turn. -/
private theorem decode_fields_iff {kind : RpcStatus.table.Kind} {items : List Core.Item}
    {final : RpcStatus.table.Data kind} (short : (items.flatMap Core.Item.written).length < 2 ^ 63)
    (plain : ∀ item ∈ items, item.tag.fieldNumber.toNat < 2 ^ 29 ∧
      item.value.wireType = item.tag.wireType)
    (typed : ∀ item ∈ items, RpcStatus.table.Typed kind item.tag) :
    RpcStatus.table.decode kind (Reader.new (.ofBytes (items.flatMap Core.Item.written))) = .ok final ↔
      Affordable items ∧ items.foldlM (Table.pass RpcStatus.table.decode kind .default 0)
        (RpcStatus.table.start kind) = .ok final := by
  have rest := new_rest short
  have wire := Table.items_of_plain plain rest
  refine (Table.decode_eq_ok_iff (Reader.withLimits_solvent _ _) wire typed).trans ?_
  exact and_congr_left' (affords_iff (Reader.withLimits_atStart _ _) rfl rest)

private theorem any_plain (any : Any) : ∀ item ∈ any.items,
    item.tag.fieldNumber.toNat < 2 ^ 29 ∧ item.value.wireType = item.tag.wireType := by
  simp [Any.items, field, UnknownValue.wireType]

private theorem any_typed (any : Any) :
    ∀ item ∈ any.items, RpcStatus.table.Typed .any item.tag := by
  simp only [Any.items, List.mem_cons, List.not_mem_nil, or_false, forall_eq_or_imp, forall_eq]
  exact ⟨⟨_, rfl, rfl⟩, ⟨_, rfl, rfl⟩⟩

private theorem takeArm_string {D : Type} {set : String → D → D} {text : String} {self : D}
    (short : (asBytes text).length ≤ 16 * 1024 * 1024) :
    Table.takeArm RpcStatus.table.decode (.string set) .default 0 self
      (.lengthDelimited (asBytes text)) = .ok (set text self) := by
  have within : DecoderLimits.within DecoderLimits.default.maxStringLen (asBytes text).length = true :=
    decide_eq_true short
  simp only [Table.takeArm, DecoderLimits.checkString, DecoderLimits.check, within, if_true,
    Outcome.ok_bind, fromUtf8_asBytes, Outcome.ofOption_some]

private def anyPass (self : Any) (item : Core.Item) : Core.Result Any :=
  Table.pass RpcStatus.table.decode .any .default 0 self item

private def rpcPass (self : RpcStatus) (item : Core.Item) : Core.Result RpcStatus :=
  Table.pass RpcStatus.table.decode .status .default 0 self item

theorem Any.decode_bytes {any : Any} (short : any.bytes.length ≤ 16 * 1024 * 1024) :
    RpcStatus.table.decode .any (Reader.new (.ofBytes any.bytes)) = .ok any := by
  have inside : ∀ item ∈ any.items, item.value.payload.length ≤ 16 * 1024 * 1024 :=
    fun item member => Nat.le_trans (Table.payload_le member) short
  have typeUrl : anyPass {} (field 1 (by decide) (.lengthDelimited (asBytes any.typeUrl))) =
      .ok { typeUrl := any.typeUrl } := by
    have arm : anyPass {} (field 1 (by decide) (.lengthDelimited (asBytes any.typeUrl))) =
        Table.takeArm RpcStatus.table.decode
          (.string fun typeUrl (self : Any) => { self with typeUrl }) .default 0 {}
          (.lengthDelimited (asBytes any.typeUrl)) := rfl
    rw [arm, takeArm_string (inside _ List.mem_cons_self)]
  have folded : any.items.foldlM anyPass {} = .ok any := by
    rw [Any.items, List.foldlM_cons, typeUrl]
    rfl
  exact (decode_fields_iff (Nat.lt_of_le_of_lt short (by decide)) (any_plain any)
    (any_typed any)).mpr
      ⟨⟨inside, Nat.le_trans short (by decide), show 2 ≤ 1000000 by decide⟩, folded⟩

section Details

variable (status : Status)

private theorem rpc_plain : ∀ item ∈ status.rpcItems,
    item.tag.fieldNumber.toNat < 2 ^ 29 ∧ item.value.wireType = item.tag.wireType := by
  unfold Status.rpcItems
  split <;> simp [field, UnknownValue.wireType]

private theorem rpc_typed : ∀ item ∈ status.rpcItems, RpcStatus.table.Typed .status item.tag := by
  have code : ∀ word, RpcStatus.table.Typed .status (field 1 (by decide) (.varint word)).tag :=
    fun _ => ⟨_, rfl, rfl⟩
  have message : ∀ body,
      RpcStatus.table.Typed .status (field 2 (by decide) (.lengthDelimited body)).tag :=
    fun _ => ⟨_, rfl, rfl⟩
  have details : ∀ body,
      RpcStatus.table.Typed .status (field 3 (by decide) (.lengthDelimited body)).tag :=
    fun _ => ⟨_, rfl, rfl⟩
  intro item member
  unfold Status.rpcItems at member
  split at member
  · simp only [List.nil_append, List.mem_cons, List.mem_map] at member
    rcases member with rfl | ⟨any, _, rfl⟩
    · exact code _
    · exact details _
  · simp only [List.mem_cons, List.mem_append, List.mem_map, List.not_mem_nil, or_false] at member
    rcases member with rfl | rfl | ⟨any, _, rfl⟩
    · exact code _
    · exact message _
    · exact details _

/-- The details are added one after another. -/
private theorem details_fold {details : List Any}
    (short : ∀ any ∈ details, any.bytes.length ≤ 16 * 1024 * 1024) (self : RpcStatus) :
    (details.map fun any => field 3 (by decide) (.lengthDelimited any.bytes)).foldlM rpcPass self =
      .ok { self with details := self.details ++ details } := by
  induction details generalizing self with
  | nil =>
    rw [List.append_nil]
    rfl
  | cons any rest inductionHypothesis =>
    have added : rpcPass self (field 3 (by decide) (.lengthDelimited any.bytes)) =
        .ok { self with details := self.details ++ [any] } := by
      have step : rpcPass self (field 3 (by decide) (.lengthDelimited any.bytes)) =
          RpcStatus.table.decode .any (Reader.new (.ofBytes any.bytes)) >>= fun (value : Any) =>
            .ok { self with details := self.details ++ [value] } := rfl
      rw [step, Any.decode_bytes (short any List.mem_cons_self)]
      rfl
    rw [List.map_cons, List.foldlM_cons, added, Outcome.ok_bind,
      inductionHypothesis fun other member => short other (List.mem_cons_of_mem _ member)]
    simp only [List.append_assoc, List.singleton_append]

private theorem rpc_fold (fit : status.DetailsFit) : ∃ final : RpcStatus,
    status.rpcItems.foldlM rpcPass {} = .ok final ∧ final.details = status.details := by
  have code : ∃ code, rpcPass {} (field 1 (by decide)
      (.varint (int32Word (Int32.ofInt status.code.asI32)))) = .ok { code } := ⟨_, rfl⟩
  have message : ∀ self, rpcPass self (field 2 (by decide)
      (.lengthDelimited (asBytes status.message))) = .ok { self with message := status.message } := by
    intro self
    have arm : rpcPass self (field 2 (by decide) (.lengthDelimited (asBytes status.message))) =
        Table.takeArm RpcStatus.table.decode
          (.string fun message (self : RpcStatus) => { self with message }) .default 0 self
          (.lengthDelimited (asBytes status.message)) := rfl
    rw [arm, takeArm_string fit.message]
  obtain ⟨code, first⟩ := code
  have rest := details_fold fit.details
  rw [Status.rpcItems, List.foldlM_cons, first, Outcome.ok_bind]
  split
  · exact ⟨_, rest _, rfl⟩
  · rw [List.singleton_append, List.foldlM_cons, message, Outcome.ok_bind]
    exact ⟨_, rest _, rfl⟩

private theorem affordable_iff : Affordable status.rpcItems ↔ status.DetailsFit := by
  have lengths : (∀ item ∈ status.rpcItems, item.value.payload.length ≤ 16 * 1024 * 1024) ↔
      (asBytes status.message).length ≤ 16 * 1024 * 1024 ∧
        ∀ any ∈ status.details, any.bytes.length ≤ 16 * 1024 * 1024 := by
    unfold Status.rpcItems
    split
    · rename_i empty
      simp [field, UnknownValue.payload, empty, asBytes]
    · simp [field, UnknownValue.payload]
  constructor
  · rintro ⟨each, total, fields⟩
    obtain ⟨message, details⟩ := lengths.mp each
    exact ⟨message, details, total, fields⟩
  · rintro ⟨message, details, total, fields⟩
    exact ⟨lengths.mpr ⟨message, details⟩, total, fields⟩

/-- More bytes than memory holds stand for none. -/
private theorem decode_oversize {bytes : List UInt8} (long : ¬ bytes.length < 2 ^ 63) :
    decodeGoogleRpcStatus bytes = .ok {} := by
  have none : Slice.ofBytes bytes = .ofBytes (([] : List Core.Item).flatMap Core.Item.written) := by
    rw [Slice.ofBytes, dif_neg long]
    rfl
  have short : (([] : List Core.Item).flatMap Core.Item.written).length < 2 ^ 63 := by decide
  rw [decodeGoogleRpcStatus, none]
  exact (decode_fields_iff short (by simp) (by simp)).mpr
    ⟨⟨by simp, Nat.zero_le _, Nat.zero_le _⟩, rfl⟩

/-- The details are read back exactly within the default limits. -/
theorem details_decode_iff (given : status.details ≠ []) :
    (∃ rpc, decodeGoogleRpcStatus status.rpcBytes = .ok rpc ∧ rpc.details = status.details) ↔
      status.DetailsFit := by
  by_cases short : status.rpcBytes.length < 2 ^ 63
  · have decodes : ∀ final : RpcStatus, decodeGoogleRpcStatus status.rpcBytes = .ok final ↔
        Affordable status.rpcItems ∧ status.rpcItems.foldlM rpcPass {} = .ok final :=
      fun _ => decode_fields_iff short (rpc_plain status) (rpc_typed status)
    constructor
    · rintro ⟨rpc, decoded, _⟩
      exact (affordable_iff status).mp ((decodes rpc).mp decoded).1
    · intro fit
      obtain ⟨final, folded, same⟩ := rpc_fold status fit
      exact ⟨final, (decodes final).mpr ⟨(affordable_iff status).mpr fit, folded⟩, same⟩
  · rw [decode_oversize short]
    constructor
    · rintro ⟨rpc, same, details⟩
      cases same
      exact (given details.symm).elim
    · intro fit
      have total := fit.total
      omega

end Details

end Reading

end TptProto.Grpc
