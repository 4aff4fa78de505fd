import TptProto.Core.Table
import TptProto.Core.TableExtras
import TptProto.Wkt.Struct

/-! The well-known messages that hold no others, and `Empty`. -/

namespace TptProto.Wkt

open TptProto.Foundation TptProto.Core

structure Timestamp where
  seconds : Int64 := 0
  nanos : Int32 := 0
  deriving DecidableEq

structure Duration where
  seconds : Int64 := 0
  nanos : Int32 := 0
  deriving DecidableEq

structure FieldMask where
  paths : List String := []
  deriving DecidableEq

structure Any where
  typeUrl : String := ""
  value : List UInt8 := []
  deriving DecidableEq

structure Empty where
  deriving DecidableEq

/-- The types that `wrapper!` makes, and the two like them that are written out. -/
inductive Wrapper where
  | doubleValue
  | floatValue
  | int64Value
  | uint64Value
  | int32Value
  | uint32Value
  | boolValue
  | stringValue
  | bytesValue
  deriving DecidableEq, Repr

/-- What a wrapper holds; floats are their bit patterns. -/
abbrev Wrapper.Inner : Wrapper → Type
  | doubleValue => UInt64
  | floatValue => UInt32
  | int64Value => Int64
  | uint64Value => UInt64
  | int32Value => Int32
  | uint32Value => UInt32
  | boolValue => Bool
  | stringValue => String
  | bytesValue => List UInt8

def Wrapper.start : (wrapper : Wrapper) → wrapper.Inner
  | doubleValue => (0 : UInt64)
  | floatValue => (0 : UInt32)
  | int64Value => (0 : Int64)
  | uint64Value => (0 : UInt64)
  | int32Value => (0 : Int32)
  | uint32Value => (0 : UInt32)
  | boolValue => false
  | stringValue => ""
  | bytesValue => ([] : List UInt8)

inductive Simple where
  | timestamp
  | duration
  | fieldMask
  | any
  | wrapper (type : Wrapper)
  | empty
  deriving DecidableEq, Repr

abbrev Simple.Data : Simple → Type
  | timestamp => Timestamp
  | duration => Duration
  | fieldMask => FieldMask
  | any => Any
  | wrapper type => type.Inner
  | empty => Empty

def Simple.start : (kind : Simple) → kind.Data
  | timestamp => ({} : Timestamp)
  | duration => ({} : Duration)
  | fieldMask => ({} : FieldMask)
  | any => ({} : Any)
  | wrapper type => type.start
  | empty => ({} : Empty)

/-- What an arm of these decoders may do. -/
abbrev SimpleArm (D : Type) := Arm Simple.Data D

def Timestamp.arms (number : UInt32) (wireType : WireType) : Option (SimpleArm Timestamp) :=
  match number.toNat, wireType with
  | 1, .varint => some (.int64 fun seconds self => { self with seconds })
  | 2, .varint => some (.int32 fun nanos self => { self with nanos })
  | _, _ => none

def Duration.arms (number : UInt32) (wireType : WireType) : Option (SimpleArm Duration) :=
  match number.toNat, wireType with
  | 1, .varint => some (.int64 fun seconds self => { self with seconds })
  | 2, .varint => some (.int32 fun nanos self => { self with nanos })
  | _, _ => none

def FieldMask.arms (number : UInt32) (wireType : WireType) : Option (SimpleArm FieldMask) :=
  match number.toNat, wireType with
  | 1, .lengthDelimited => some (.string fun path self => { self with paths := self.paths ++ [path] })
  | _, _ => none

def Any.arms (number : UInt32) (wireType : WireType) : Option (SimpleArm Any) :=
  match number.toNat, wireType with
  | 1, .lengthDelimited => some (.string fun typeUrl self => { self with typeUrl })
  | 2, .lengthDelimited => some (.bytes fun value self => { self with value })
  | _, _ => none

/-- `$dec`, the read that the wrapper is given. -/
def Wrapper.dec : (wrapper : Wrapper) → SimpleArm wrapper.Inner
  | doubleValue => .double fun (value : UInt64) _ => value
  | floatValue => .float fun (value : UInt32) _ => value
  | int64Value => .int64 fun (value : Int64) _ => value
  | uint64Value => .uint64 fun (value : UInt64) _ => value
  | int32Value => .int32 fun (value : Int32) _ => value
  | uint32Value => .uint32 fun (value : UInt32) _ => value
  | boolValue => .bool fun (value : Bool) _ => value
  | stringValue => .string fun (value : String) _ => value
  | bytesValue => .bytes fun (value : List UInt8) _ => value

/-- A wrapper reads its field whatever the wire type of the tag. -/
def Wrapper.arms (wrapper : Wrapper) (number : UInt32) (_ : WireType) :
    Option (SimpleArm wrapper.Inner) :=
  if number.toNat = 1 then some wrapper.dec else none

def Simple.arms : (kind : Simple) → UInt32 → WireType → Option (SimpleArm kind.Data)
  | timestamp => Timestamp.arms
  | duration => Duration.arms
  | fieldMask => FieldMask.arms
  | any => Any.arms
  | wrapper type => type.arms
  | empty => fun _ _ => none

def simples : Table where
  Kind := Simple
  Data := Simple.Data
  start := Simple.start
  arms := Simple.arms

/-- `Empty` reads nothing. -/
def Empty.mergeFrom (self : Empty) (r : Reader) : Result (Empty × Reader) := .ok (self, r)

def Empty.decode (bytes : Slice) : Result Empty := do
  let (msg, r) ← Empty.mergeFrom {} (.new bytes)
  if !r.isEmpty then .err (.malformedInput "trailing bytes after message")
  else .ok msg

/-- `Message::decode`: the loop over the arms, which `Empty` does not have. -/
def Simple.decode : (kind : Simple) → Slice → Result kind.Data
  | empty, bytes => Empty.decode bytes
  | kind, bytes => simples.decodeBytes kind bytes

end TptProto.Wkt

/-! Which fields the decoders of well-known types skip. `Empty` rejects all fields, a wrapper reads
every field 1 as its own, and a value reads a varint in field 2 as a double. -/

namespace TptProto.Wkt

open TptProto.Foundation TptProto.Core TptProto.Core.Table

def Wrapper.wireType : Wrapper → WireType
  | doubleValue => .fixed64
  | floatValue => .fixed32
  | int64Value | uint64Value | int32Value | uint32Value | boolValue => .varint
  | stringValue | bytesValue => .lengthDelimited

/-- The fields of the simple messages in `well_known_file_descriptor_set`. -/
def Simple.declared (kind : Simple) (number : UInt32) : Option WireType :=
  match kind, number.toNat with
  | timestamp, 1 | timestamp, 2 | duration, 1 | duration, 2 => some .varint
  | fieldMask, 1 | any, 1 | any, 2 => some .lengthDelimited
  | wrapper type, 1 => some type.wireType
  | _, _ => none

/-- The fields of the structured messages in `well_known_file_descriptor_set`. -/
def Kind.declared (kind : Kind) (number : UInt32) : Option WireType :=
  match kind, number.toNat with
  | struct, 1 | entry, 1 | entry, 2 | list, 1 => some .lengthDelimited
  | value, 1 | value, 4 => some .varint
  | value, 2 => some .fixed64
  | value, 3 | value, 5 | value, 6 => some .lengthDelimited
  | _, _ => none

theorem Wrapper.dec_wireType (wrapper : Wrapper) : wrapper.dec.wireType = wrapper.wireType := by
  cases wrapper <;> rfl

theorem Wrapper.dec_flat (wrapper : Wrapper) : wrapper.dec.Flat := by
  intro opening child set same
  cases wrapper <;> cases same

theorem Wrapper.dec_overwrites (wrapper : Wrapper) : wrapper.dec.Overwrites := by
  cases wrapper <;> exact fun _ _ _ => rfl

def simpleSchema : simples.Schema where
  declared := Simple.declared
  taken {kind number wireType} declared := by
    unfold Simple.declared at declared
    split at declared
    case h_8 type single =>
      exact ⟨type.dec, if_pos single, type.dec_wireType.trans (Option.some.inj declared)⟩
    all_goals first | cases declared | skip
    all_goals simp_all [simples, Simple.arms, Timestamp.arms, Duration.arms, FieldMask.arms, Any.arms,
      Arm.wireType]

def structSchema : structs.Schema where
  declared := Kind.declared
  taken {kind number wireType} declared := by
    unfold Kind.declared at declared
    split at declared
    all_goals first | cases declared | skip
    all_goals simp_all [structs, Struct.arms, Entry.arms, Value.arms, ListValue.arms, Arm.wireType]

/-- Apart from wrappers, the arms take just what is declared. -/
theorem simples_untaken {kind : Simple} {number : UInt32} {wireType : WireType}
    (undeclared : kind.declared number ≠ some wireType)
    (other : ∀ type, kind = .wrapper type → number.toNat ≠ 1) :
    simples.arms kind number wireType = none := by
  cases kind with
  | empty => rfl
  | wrapper type => exact if_neg (other type rfl)
  | _ =>
    simp only [simples, Simple.arms, Timestamp.arms, Duration.arms, FieldMask.arms, Any.arms]
    split <;> simp_all [Simple.declared]

/-- Apart from a varint in a value's field 2, the arms take just what is declared. -/
theorem structs_untaken {kind : Kind} {number : UInt32} {wireType : WireType}
    (undeclared : kind.declared number ≠ some wireType)
    (other : kind = .value → ¬ (number.toNat = 2 ∧ wireType = .varint)) :
    structs.arms kind number wireType = none := by
  cases kind with
  | _ =>
    simp only [structs, Struct.arms, Entry.arms, Value.arms, ListValue.arms]
    split <;> simp_all [Kind.declared]

section Samples

/-- Two values that a wrapper's field may hold. -/
def Wrapper.sample (wrapper : Wrapper) (flag : Bool) : UnknownValue :=
  match wrapper with
  | doubleValue => .fixed64 (if flag then 1 else 0)
  | floatValue => .fixed32 (if flag then 1 else 0)
  | int64Value | uint64Value | int32Value | uint32Value | boolValue => .varint (if flag then 1 else 0)
  | stringValue => .lengthDelimited (asBytes (if flag then "a" else ""))
  | bytesValue => .lengthDelimited (if flag then [0] else [])

private def Wrapper.sampleItem (wrapper : Wrapper) (flag : Bool) : Item :=
  ⟨⟨1, wrapper.wireType, Tag.nonzero_one⟩, wrapper.sample flag⟩

private theorem Wrapper.encodes (wrapper : Wrapper) :
    ∃ a b : wrapper.Inner, a ≠ b ∧
      Encodes simpleSchema (.wrapper wrapper) (wrapper.sampleItem true) a ∧
      Encodes simpleSchema (.wrapper wrapper) (wrapper.sampleItem false) b := by
  have taken (flag : Bool) {value : wrapper.Inner}
      (passes : takeArm (T := simples) decode wrapper.dec .default 0 wrapper.start
        (wrapper.sample flag) = .ok value)
      (natural : (wrapper.sample flag).wireType = wrapper.wireType)
      (short : (wrapper.sample flag).payload.length ≤ 1024) :
      Encodes simpleSchema (.wrapper wrapper) (wrapper.sampleItem flag) value := by
    refine ⟨rfl, fun arm found => ?_, show (1 : UInt32).toNat < 2 ^ 29 by decide, natural, short, ?_⟩
    · obtain rfl := Option.some.inj found
      exact wrapper.dec_flat
    · exact passes
  cases wrapper with
  | stringValue =>
    have text (value : String) (short : (asBytes value).length ≤ 1024) :
        takeArm (T := simples) decode (Wrapper.dec .stringValue) .default 0
          (Wrapper.start .stringValue) (.lengthDelimited (asBytes value)) = .ok value := by
      have admitted : DecoderLimits.within DecoderLimits.default.maxStringLen (asBytes value).length :=
        decide_eq_true (Nat.le_trans short (by decide))
      simp only [Wrapper.dec, takeArm, DecoderLimits.checkString, DecoderLimits.check, admitted,
        if_true, Outcome.ok_bind, fromUtf8_asBytes, Outcome.ofOption_some]
    exact ⟨"a", "", by decide, taken true (text "a" (by decide)) rfl (by decide),
      taken false (text "" (by decide)) rfl (by decide)⟩
  | bytesValue => exact ⟨[0], [], by decide, taken true rfl rfl (by decide), taken false rfl rfl (by decide)⟩
  | _ => exact ⟨_, _, by decide, taken true rfl rfl (by decide), taken false rfl rfl (by decide)⟩

private def Value.sampleItem (flag : Bool) : Item :=
  ⟨⟨4, .varint, by decide⟩, .varint (if flag then 1 else 0)⟩

private theorem Value.encodes (flag : Bool) :
    Encodes structSchema .value (Value.sampleItem flag) (.bool flag) := by
  refine ⟨rfl, fun arm found => ?_, show (4 : UInt32).toNat < 2 ^ 29 by decide, rfl, Nat.zero_le _, ?_⟩
  · obtain rfl := Option.some.inj found
    intro opening child set same
    cases same
  · cases flag <;> rfl

end Samples

/-- The property of the decoders of all well-known messages. A struct's entries have no decoder of
their own. -/
def SkipsExtras (simple : simples.Extras simpleSchema) (structured : structs.Extras structSchema) :
    Prop :=
  (∀ kind, simple.Skipped kind kind.decode) ∧
    ∀ kind, kind ≠ .entry → structured.Skipped kind (decodeBytes kind)

/-- A field that `Empty` meets is left over. -/
theorem Empty.decode_eq (bytes : Slice) :
    Empty.decode bytes = if bytes.length = 0 then .ok {}
      else .err (.malformedInput "trailing bytes after message") := by
  have here : (Reader.new bytes).isEmpty = decide (bytes.length = 0) := by
    simp [Reader.isEmpty, Reader.new, Reader.withLimits]
  simp only [Empty.decode, Empty.mergeFrom, Outcome.ok_bind, here]
  by_cases none : bytes.length = 0 <;> simp [none]

private theorem simple_untaken {simple : simples.Extras simpleSchema}
    (wrappers : ∀ wrapper item, simple.added (.wrapper wrapper) item → item.tag.fieldNumber ≠ 1) :
    simple.Untaken := by
  intro kind item added
  refine simples_untaken (simple.undeclared added) ?_
  rintro wrapper rfl single
  exact wrappers wrapper item added (UInt32.toNat_inj.mp single)

private theorem struct_untaken {structured : structs.Extras structSchema}
    (values : ∀ item, structured.added .value item →
      ¬ (item.tag.fieldNumber = 2 ∧ item.tag.wireType = .varint)) : structured.Untaken := by
  intro kind item added
  refine structs_untaken (structured.undeclared added) ?_
  rintro rfl ⟨second, varint⟩
  exact values item added ⟨UInt32.toNat_inj.mp second, varint⟩

/-- Nothing is ever in an `Empty` but extra fields. -/
private theorem empty_mixed {simple : simples.Extras simpleSchema}
    (none : ∀ item, ¬ simple.added .empty item) {kind : simples.Kind} {items items' : List Item}
    (mixed : Mixed simple kind items items') (empty : kind = Simple.empty) : items' = [] := by
  cases mixed with
  | nil => rfl
  | extra added _ => exact absurd (empty ▸ added) (none _)
  | field declared _ _ | message declared _ _ _ _ _ =>
    subst empty
    cases declared

private theorem empty_skipped {simple : simples.Extras simpleSchema}
    (none : ∀ item, ¬ simple.added .empty item) :
    simple.Skipped .empty (Simple.decode .empty) := by
  intro base whole items items' value _ wire mixed _
  have nothing : items' = [] := empty_mixed none mixed rfl
  subst nothing
  have blank := sequence_nil_iff.mp wire
  have decoded : Simple.decode .empty whole = .ok value := by
    show Empty.decode whole = _
    rw [Empty.decode_eq, Slice.length, blank, if_pos List.length_nil]
    rfl
  refine iff_of_true decoded ?_
  rw [blank]
  exact .intro [] .nil (DecoderLimits.within_zero _) (DecoderLimits.within_zero _) (by simp) (by simp)
    (by simp) (by simp)

/-- Extra fields are skipped, at every place and level and exactly within the limits, just where
none is put in an `Empty`, none in a wrapper has number 1, and none in a value is a varint of
number 2. -/
theorem skipsExtras_iff (simple : simples.Extras simpleSchema)
    (structured : structs.Extras structSchema) :
    SkipsExtras simple structured ↔
      (∀ item, ¬ simple.added .empty item) ∧
      (∀ wrapper item, simple.added (.wrapper wrapper) item → item.tag.fieldNumber ≠ 1) ∧
      ∀ item, structured.added .value item →
        ¬ (item.tag.fieldNumber = 2 ∧ item.tag.wireType = .varint) := by
  constructor
  · rintro ⟨skips, skips'⟩
    refine ⟨fun item added => ?_, fun wrapper item added single => ?_, ?_⟩
    · obtain ⟨whole, positive, wire, within⟩ := simple.alone added (by rintro arm ⟨⟩)
      have decoded : Simple.decode .empty whole = .ok {} :=
        (skips .empty .empty whole [] [item] {} .nil wire (.extra added .nil) rfl).mpr within
      rw [show Simple.decode .empty whole = Empty.decode whole from rfl, Empty.decode_eq,
        if_neg (Nat.ne_of_gt positive)] at decoded
      cases decoded
    · obtain ⟨a, b, differ, encodes, encodes'⟩ := wrapper.encodes
      have found : simples.arms (.wrapper wrapper) item.tag.fieldNumber item.tag.wireType =
          some wrapper.dec := if_pos (by rw [single]; rfl)
      exact differ (Extras.Skipped.unique (skips (.wrapper wrapper)) added found wrapper.dec_flat
        wrapper.dec_overwrites encodes encodes')
    · rintro item added ⟨second, varint⟩
      have found : structs.arms .value item.tag.fieldNumber item.tag.wireType =
          some (.double fun bits _ => .number bits) := by
        rw [second, varint]
        rfl
      have same := Extras.Skipped.unique (skips' .value nofun) added found
        (fun _ _ _ same => by cases same) (fun _ _ _ => rfl) (Value.encodes true) (Value.encodes false)
      cases same
  · rintro ⟨empties, wrappers, values⟩
    refine ⟨fun kind => ?_, fun kind _ => (struct_untaken values).skipped kind⟩
    cases kind with
    | empty => exact empty_skipped empties
    | _ => exact (simple_untaken wrappers).skipped _

/-- Only `Empty` is given a field: number 1, the varint 1. -/
private def oneInEmpty : simples.Extras simpleSchema where
  added kind item := kind = Simple.empty ∧ item = ⟨⟨1, .varint, Tag.nonzero_one⟩, .varint 1⟩
  small := by
    rintro kind item ⟨_, rfl⟩
    show (1 : UInt32).toNat < 2 ^ 29
    decide
  natural := by
    rintro kind item ⟨_, rfl⟩
    rfl
  fits := by
    rintro kind item ⟨_, rfl⟩
    trivial
  undeclared := by
    rintro kind item ⟨rfl, rfl⟩ declared
    cases declared

/-- No extra fields. -/
private def noExtras : structs.Extras structSchema where
  added _ _ := False
  small := False.elim
  natural := False.elim
  fits := False.elim
  undeclared := False.elim

/-- `Empty` rejects field 1; a `BoolValue` that holds true and a fixed32 in field 1 fails, as does
a `Value` that holds true and a varint in field 2. -/
theorem not_skipsExtras :
    Empty.decode ⟨[0x08, 0x01], by decide⟩ =
        .err (.malformedInput "trailing bytes after message") ∧
      Simple.decode (.wrapper .boolValue) ⟨[0x08, 0x01], by decide⟩ = .ok true ∧
      Simple.decode (.wrapper .boolValue) ⟨[0x08, 0x01, 0x0d, 0, 0, 0, 0], by decide⟩ =
        .err (.invalidTag 0) ∧
      (∃ value, structs.decodeBytes .value ⟨[0x20, 0x01], by decide⟩ = .ok value) ∧
      (∀ value, structs.decodeBytes .value ⟨[0x20, 0x01, 0x10, 0x07], by decide⟩ ≠ .ok value) ∧
      ¬ ∀ (simple : simples.Extras simpleSchema) (structured : structs.Extras structSchema),
        SkipsExtras simple structured := by
  have rejected : Empty.decode ⟨[0x08, 0x01], by decide⟩ =
      .err (.malformedInput "trailing bytes after message") := rfl
  refine ⟨rejected, by decide +kernel, by decide +kernel, ⟨_, rfl⟩, ?_, fun skips => ?_⟩
  · rintro value ⟨⟩
  · have wire : Items Tag.wireType [⟨⟨1, .varint, by decide⟩, .varint 1⟩] [0x08, 0x01] :=
      .single ⟨[0x08], 8, [0x01], rfl, wireVarint_encodeVarint 8, rfl, rfl, rfl,
        .varint (wireVarint_encodeVarint 1)⟩
    have within : simples.WithinLimits .default 0 Simple.empty [0x08, 0x01] :=
      .intro _ wire (by decide) (by decide) (by simp [UnknownValue.Fits]) (by rintro _ _ _ ⟨⟩)
        (by rintro _ _ _ _ ⟨⟩) (by rintro _ _ _ _ _ ⟨⟩)
    have decoded := ((skips oneInEmpty noExtras).1 .empty .empty ⟨[0x08, 0x01], by decide⟩ [] _ {} .nil
      wire (.extra ⟨rfl, rfl⟩ .nil) rfl).mpr within
    cases rejected.symm.trans decoded

end TptProto.Wkt
