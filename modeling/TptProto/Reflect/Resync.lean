import TptProto.Reflect.DecodeSpec

/-! Synchronisation of decoding with the frames on the wire. A declared field is read
with the wire type of its declaration, whatever its tag says. -/

namespace TptProto.Reflect

open TptProto.Foundation TptProto.Core TptProto.Descriptor

/-- A cursor at the start of a buffer, at any depth. -/
def startAt (bytes : Slice) (limits : DecoderLimits) (depth : UInt32) : Reader :=
  { Reader.withLimits bytes limits with depth }

theorem startAt_solvent (bytes : Slice) (limits : DecoderLimits) (depth : UInt32) :
    (startAt bytes limits depth).Solvent :=
  ⟨⟨Nat.le_refl _, Nat.le_refl _⟩, DecoderLimits.within_zero _, DecoderLimits.within_zero _⟩

section Sync

variable (pool : DescriptorPool) (descriptor : DescriptorProto)

/-- A declared field whose frame has neither its wire type nor its packed form. -/
def Mismatched (frame : Frame) : Prop :=
  ∃ field, declared pool descriptor frame.stored.toInt32 = some field ∧
    frame.value.wireType ≠ fieldWireType (field.type.getD .string) ∧
    ¬ (frame.value.wireType = .lengthDelimited ∧ packedAllowed (field.type.getD .string) = true ∧
      field.label = some .repeated)

/-- Decoding takes the frames one after another, each to its end, and puts those that
do not match their field among the unknown fields. -/
inductive Consumes (recurse : Recurse) :
    List Frame → DynamicMessage × Reader → DynamicMessage × Reader → Prop where
  | done {state : DynamicMessage × Reader} (finished : state.2.rest = []) :
      Consumes recurse [] state state
  | frame {frame : Frame} {frames : List Frame} {bytes rest : List UInt8}
      {state next final : DynamicMessage × Reader} (here : state.2.rest = bytes ++ rest)
      (wire : frame.Bytes bytes) (step : decodeStep recurse pool descriptor state = .ok next)
      (after : next.2.rest = rest)
      (kept : Mismatched pool descriptor frame →
        next.1 = { state.1 with unknown := state.1.unknown.insert frame.stored frame.value })
      (later : Consumes recurse frames next final) :
      Consumes recurse (frame :: frames) state final

/-- The frame is undeclared, has the wire type of its field, or is a packed form the
decoder takes as one. A packed enum is taken as such only when it is empty. -/
def InStep (frame : Frame) : Prop :=
  ∀ field, declared pool descriptor frame.stored.toInt32 = some field →
    frame.value.wireType = fieldWireType (field.type.getD .string) ∨
      frame.value.wireType = .lengthDelimited ∧ packedAllowed (field.type.getD .string) = true ∧
        field.label = some .repeated ∧
        (field.type.getD .string = .enum → frame.value.payload = [])

variable {pool descriptor}

/-- The item decoding reads where a frame lies has the frame's tag; its value may end elsewhere. -/
theorem item_against {item : Item} {frame : Frame} {itemBytes frameBytes rest rest' : List UInt8}
    {chosen : Tag → WireType} (read : item.Bytes chosen itemBytes) (lies : frame.Bytes frameBytes)
    (same : itemBytes ++ rest' = frameBytes ++ rest) :
    item.tag.fieldNumber = frame.stored ∧ item.tag.wireType = frame.value.wireType ∧
      ∃ tagBytes valueBytes valueBytes', itemBytes = tagBytes ++ valueBytes' ∧
        frameBytes = tagBytes ++ valueBytes ∧ ValueBytes item.value valueBytes' ∧
        item.value.wireType = chosen item.tag ∧ ValueBytes frame.value valueBytes ∧
        valueBytes' ++ rest' = valueBytes ++ rest := by
  obtain ⟨tagBytes', raw', valueBytes', rfl, tag', number, kind, chosenKind, value'⟩ := read
  obtain ⟨tagBytes, raw, valueBytes, rfl, tag, denoted, value⟩ := lies
  rw [List.append_assoc, List.append_assoc] at same
  obtain ⟨rfl, rfl, tails⟩ := tag'.unique tag same
  have low := frame.value.wireType.asU8_lt
  refine ⟨?_, asU8_inj (by omega), tagBytes', valueBytes, valueBytes', rfl, rfl, value', chosenKind,
    value, tails⟩
  apply UInt32.toNat_inj.mp
  rw [number, Frame.stored, UInt32.toNat_ofNat']
  omega

theorem insertField_unknown {msg msg' : DynamicMessage} {field : FieldDescriptorProto} {val : Value}
    (inserted : insertField msg field val = .ok msg') : msg'.unknown = msg.unknown := by
  unfold insertField at inserted
  simp only at inserted
  split at inserted
  · split at inserted
    · split at inserted
      · cases inserted
        rfl
      · cases inserted
    · cases inserted
      rfl
  · cases inserted
    rfl

/-- Only undeclared items reach the unknown fields. -/
theorem applyItem_unknown {recurse : Recurse} {limits : DecoderLimits} {depth : UInt32}
    {msg msg' : DynamicMessage} {item : Item} {field : FieldDescriptorProto}
    (found : declared pool descriptor item.tag.fieldNumber.toInt32 = some field)
    (applied : applyItem recurse pool descriptor limits depth msg item = .ok msg') :
    msg'.unknown = msg.unknown := by
  unfold applyItem at applied
  simp only at applied
  split at applied
  · obtain ⟨val, _, inserted⟩ := Outcome.bind_eq_ok.mp applied
    exact insertField_unknown inserted
  · rename_i missing
    rw [declared, missing, Option.none_or] at found
    rw [found] at applied
    obtain ⟨val, _, same⟩ := Outcome.bind_eq_ok.mp applied
    cases same
    rfl

theorem insert_ne (set : UnknownFieldSet) (number : UInt32) (value : UnknownValue) :
    set.insert number value ≠ set := by
  intro same
  have total := congrArg UnknownFieldSet.totalLen same
  have positive : 0 < tagLen number := by
    rw [tagLen_eq number .varint]
    exact (encodeVarint_length_bounds _).1
  simp only [UnknownFieldSet.insert] at total
  omega

/-- A step that ends where the frame ends and keeps mismatches shows the frame in step. -/
theorem inStep_of_consumed {recurse : Recurse} {frame : Frame} {bytes rest : List UInt8}
    {state next : DynamicMessage × Reader} (solvent : state.2.Solvent)
    (here : state.2.rest = bytes ++ rest) (wire : frame.Bytes bytes)
    (step : decodeStep recurse pool descriptor state = .ok next) (after : next.2.rest = rest)
    (kept : Mismatched pool descriptor frame →
      next.1 = { state.1 with unknown := state.1.unknown.insert frame.stored frame.value }) :
    InStep pool descriptor frame := by
  obtain ⟨msg, reader⟩ := state
  obtain ⟨msg', reader'⟩ := next
  rw [decodeStep_eq] at step
  obtain ⟨item, itemBytes, rest', split, itemWire, _, applied, moved, _⟩ :=
    (fieldStep_eq_ok_iff solvent).mp step
  simp only at here after
  have rest_eq : rest' = rest := by
    rw [← after, moved.rest_eq, split, List.drop_left]
  subst rest_eq
  obtain ⟨number, kind, tagBytes, valueBytes, valueBytes', _, _, itemValue, chosen, frameValue,
    tails⟩ := item_against itemWire wire (split.symm.trans here)
  intro field found
  rw [← number] at found
  by_cases matched : frame.value.wireType = fieldWireType (field.type.getD .string)
  · exact .inl matched
  · by_cases packed : frame.value.wireType = .lengthDelimited ∧
        packedAllowed (field.type.getD .string) = true ∧ field.label = some .repeated
    · refine .inr ⟨packed.1, packed.2.1, packed.2.2, fun enum => ?_⟩
      -- The tag's length is read as the enum's value, so the body must be empty.
      have unpacked : ¬ Packs field item.tag.wireType := fun packs => packs.2.2.1 enum
      have varint : item.value.wireType = .varint := by
        rw [chosen, wireOf, found]
        simp [wireFor, if_neg unpacked, enum, fieldWireType]
      have sameBytes := List.append_cancel_right tails
      cases value : frame.value with
      | lengthDelimited payload =>
        rw [value] at frameValue
        cases frameValue with
        | lengthDelimited header width =>
          cases itemIs : item.value with
          | varint word =>
            rw [itemIs] at itemValue
            cases itemValue with
            | varint whole =>
              obtain ⟨_, _, tail⟩ := whole.unique header ((List.append_nil _).trans sameBytes)
              exact tail.symm
          | _ => simp [itemIs, UnknownValue.wireType] at varint
      | _ => simp [value, UnknownValue.wireType] at packed
    · have mismatched : Mismatched pool descriptor frame :=
        ⟨field, by rwa [← number], matched, packed⟩
      have same := congrArg DynMsg.unknown (kept mismatched)
      simp only [applyItem_unknown found applied] at same
      exact absurd same.symm (insert_ne _ _ _)

/-- The step at an in-step frame reads exactly that frame. -/
theorem consumed_of_inStep {recurse : Recurse} {frame : Frame} {bytes rest : List UInt8}
    {state next : DynamicMessage × Reader} (solvent : state.2.Solvent)
    (here : state.2.rest = bytes ++ rest) (wire : frame.Bytes bytes)
    (step : decodeStep recurse pool descriptor state = .ok next)
    (inStep : InStep pool descriptor frame) :
    next.2.rest = rest ∧ next.2.Solvent ∧ ¬ Mismatched pool descriptor frame := by
  obtain ⟨msg, reader⟩ := state
  obtain ⟨msg', reader'⟩ := next
  rw [decodeStep_eq] at step
  obtain ⟨item, itemBytes, rest', split, itemWire, _, _, moved, solvent'⟩ :=
    (fieldStep_eq_ok_iff solvent).mp step
  simp only at here
  obtain ⟨number, kind, tagBytes, valueBytes, valueBytes', _, _, itemValue, chosen, frameValue,
    tails⟩ := item_against itemWire wire (split.symm.trans here)
  have after : reader'.rest = rest' := by rw [moved.rest_eq, split, List.drop_left]
  have sameKind : item.value.wireType = frame.value.wireType → rest' = rest := fun same =>
    (itemValue.unique frameValue same tails).2.2
  refine ⟨?_, solvent', ?_⟩
  · rw [after]
    cases found : declared pool descriptor item.tag.fieldNumber.toInt32 with
    | none => exact sameKind (by rw [chosen, wireOf, found, kind])
    | some field =>
      rw [wireOf, found] at chosen
      simp only at chosen
      rcases inStep field (by rwa [← number]) with matched | ⟨packed, allowed, repeated, empty⟩
      · refine sameKind ?_
        rw [chosen, wireFor, kind, matched]
        split
        · rename_i packs
          exact packs.1.symm
        · rfl
      · by_cases enum : field.type.getD .string = .enum
        · have unpacked : ¬ Packs field item.tag.wireType := fun packs => packs.2.2.1 enum
          rw [wireFor, if_neg unpacked, enum] at chosen
          cases value : frame.value with
          | lengthDelimited payload =>
            have none : payload = [] := by simpa [value, UnknownValue.payload] using empty enum
            subst none
            rw [value] at frameValue
            cases frameValue with
            | lengthDelimited header width =>
              cases itemIs : item.value with
              | varint word =>
                rw [itemIs] at itemValue
                cases itemValue with
                | varint whole =>
                  rw [List.append_nil] at tails
                  exact (whole.unique header tails).2.2
              | _ => simp [itemIs, UnknownValue.wireType, fieldWireType] at chosen
          | _ => simp [value, UnknownValue.wireType] at packed
        · refine sameKind ?_
          have packs : Packs field item.tag.wireType :=
            ⟨by rw [kind, packed], allowed, enum, repeated⟩
          rw [chosen, wireFor, if_pos packs, packed]
  · rintro ⟨field, found, differs, unpacked⟩
    rcases inStep field found with matched | ⟨packed, allowed, repeated, _⟩
    · exact differs matched
    · exact unpacked ⟨packed, allowed, repeated⟩

private theorem consumes_inStep {recurse : Recurse} {frames : List Frame}
    {state final : DynamicMessage × Reader}
    (consumes : Consumes pool descriptor recurse frames state final) (solvent : state.2.Solvent) :
    ∀ frame ∈ frames, InStep pool descriptor frame := by
  induction consumes with
  | done _ => simp
  | frame here wire step after kept _ ih =>
    have inStep := inStep_of_consumed solvent here wire step after kept
    have solvent' := (consumed_of_inStep solvent here wire step inStep).2.1
    simpa using ⟨inStep, ih solvent'⟩

private theorem run_consumes {recurse : Recurse} {frames : List Frame}
    {state final : DynamicMessage × Reader} {visited : List (DynamicMessage × Reader)}
    (run : Run (fun state => !state.2.isEmpty) (decodeStep recurse pool descriptor) state visited
      final) (solvent : state.2.Solvent) (wire : Frames frames state.2.rest)
    (inStep : ∀ frame ∈ frames, InStep pool descriptor frame) :
    Consumes pool descriptor recurse frames state final := by
  induction run generalizing frames with
  | @done state finished =>
    have empty : state.2.rest = [] := (Reader.isEmpty_iff _).mp (by simpa using finished)
    rw [empty] at wire
    obtain rfl := Sequence.unique frame_delimited wire .nil
    exact .done empty
  | @step state next final visited continues step _ ih =>
    cases frames with
    | nil =>
      have empty := (Reader.isEmpty_iff _).mpr (sequence_nil_iff.mp wire)
      simp [empty] at continues
    | cons frame frames =>
      obtain ⟨bytes, rest, here, head, tail⟩ := sequence_cons_iff.mp wire
      obtain ⟨after, solvent', matched⟩ :=
        consumed_of_inStep solvent here head step (inStep frame (by simp))
      exact .frame here head step after (fun mismatched => absurd mismatched matched)
        (ih solvent' (by rwa [after]) fun other member => inStep other (by simp [member]))

end Sync

/-- Decoding gets to its result by taking the frames of the buffer one after another,
keeping mismatched ones as unknown. -/
def Resynchronises (pool : DescriptorPool) (descriptor : DescriptorProto) (frames : List Frame)
    (reader : Reader) (msg : DynamicMessage) : Prop :=
  ∃ reader', Consumes pool descriptor (decodeNested pool reader.buf.length) frames
    (.new descriptor pool, reader) (msg, reader')

/-- An accepted buffer of frames is decoded frame by frame exactly when every frame
is in step with its declaration. -/
theorem resynchronises_iff {pool : DescriptorPool} {descriptor : DescriptorProto} {bytes : Slice}
    {limits : DecoderLimits} {depth : UInt32} {msg : DynamicMessage} {frames : List Frame}
    (accepted : DynMsg.decode pool descriptor (startAt bytes limits depth) = .ok msg)
    (wire : Frames frames bytes.bytes) :
    Resynchronises pool descriptor frames (startAt bytes limits depth) msg ↔
      ∀ frame ∈ frames, InStep pool descriptor frame := by
  have solvent := startAt_solvent bytes limits depth
  constructor
  · rintro ⟨_, consumes⟩
    exact consumes_inStep consumes solvent
  · intro inStep
    obtain ⟨⟨_, reader'⟩, drained, same⟩ := Outcome.bind_eq_ok.mp accepted
    cases same
    obtain ⟨visited, run, _⟩ := loop_eq_ok_iff.mp drained
    exact ⟨reader', run_consumes run solvent wire inStep⟩

section Examples

/-- A pool without entries. -/
def barePool : DescriptorPool := ⟨[], [], [], "proto3"⟩

/-- `message M { int32 n = 1; }`. -/
def int32Message : DescriptorProto :=
  { name := some "M"
    field := [{ name := some "n", number := some 1, label := some .optional, type := some .int32 }] }

/-- The message of that type holding 5. -/
def holding5 : DynamicMessage :=
  { DynMsg.new int32Message barePool with fields := [(1, .scalar (.i64 5))] }

theorem resynchronises_varint :
    Resynchronises barePool int32Message [⟨1, .varint 5⟩]
        (startAt ⟨[0x08, 0x05], by decide⟩ .default 0) holding5 ↔
      ∀ frame ∈ [Frame.mk 1 (.varint 5)], InStep barePool int32Message frame :=
  resynchronises_iff (by rfl)
    (.single ⟨[0x08], 8, [0x05], rfl, wireVarint_encodeVarint 8, by decide,
      .varint (wireVarint_encodeVarint 5)⟩)

/-- A length-delimited frame for an `int32` field: its length is read as a value and
its body as the next field. -/
theorem not_resynchronises_mismatch :
    DynMsg.decode barePool int32Message (startAt ⟨[0x0A, 0x02, 0x08, 0x05], by decide⟩ .default 0) =
        .ok holding5 ∧
      Frames [⟨1, .lengthDelimited [0x08, 0x05]⟩] [0x0A, 0x02, 0x08, 0x05] ∧
      ¬ Resynchronises barePool int32Message [⟨1, .lengthDelimited [0x08, 0x05]⟩]
        (startAt ⟨[0x0A, 0x02, 0x08, 0x05], by decide⟩ .default 0) holding5 := by
  refine ⟨by rfl, ?_, ?_⟩
  · exact .single ⟨[0x0A], 10, [0x02, 0x08, 0x05], rfl, wireVarint_encodeVarint 10, by decide,
      .lengthDelimited (wireVarint_encodeVarint 2) rfl⟩
  · rintro ⟨_, consumes⟩
    have inStep := consumes_inStep consumes (startAt_solvent _ _ _) _ (List.mem_singleton_self _)
    rcases inStep _ rfl with matched | ⟨_, _, repeated, _⟩
    · cases matched
    · cases repeated

end Examples

end TptProto.Reflect
