import TptProto.Core.Nesting
import TptProto.Reflect.DecodeSpec

/-! The recursion of the dynamic decoder: its budget never matters, and its nesting. -/

namespace TptProto.Reflect

open TptProto.Foundation TptProto.Core TptProto.Descriptor

variable {pool : DescriptorPool}

private theorem nestedAt_length {limits : DecoderLimits} {depth : UInt32} {body : List UInt8}
    {sub : Reader} (opened : Reader.nestedAt limits depth (.ofBytes body) = .ok sub) :
    sub.buf.length ≤ body.length := by
  obtain ⟨_, rfl⟩ := Reader.nestedAt_eq_ok_iff.mp opened
  exact Slice.length_ofBytes_le body

theorem interpret_congr {recurse recurse' : Recurse} {limits : DecoderLimits} {depth : UInt32}
    {field : FieldDescriptorProto} {wire : WireType} {value : UnknownValue}
    (same : ∀ sub r, r.buf.length ≤ value.payload.length → recurse sub r = recurse' sub r) :
    interpret recurse pool limits depth field wire value =
      interpret recurse' pool limits depth field wire value := by
  simp only [interpret]
  split
  · refine Outcome.bind_congr fun sub _ => Outcome.bind_congr fun reader opened => ?_
    rw [same sub reader (nestedAt_length (Outcome.mapErr_eq_ok.mp opened))]
  · rfl

theorem applyItem_congr {recurse recurse' : Recurse} {descriptor : DescriptorProto}
    {limits : DecoderLimits} {depth : UInt32} {msg : DynamicMessage} {item : Item}
    (same : ∀ sub r, r.buf.length ≤ item.value.payload.length → recurse sub r = recurse' sub r) :
    applyItem recurse pool descriptor limits depth msg item =
      applyItem recurse' pool descriptor limits depth msg item := by
  simp only [applyItem, interpret_congr same]

theorem decodeStep_kept {recurse : Recurse} {descriptor : DescriptorProto}
    {state next : DynamicMessage × Reader}
    (moved : decodeStep recurse pool descriptor state = .ok next) : Reader.Kept state.2 next.2 := by
  rw [decodeStep_eq] at moved
  exact fieldStep_kept moved

theorem decodeWith_congr {recurse recurse' : Recurse} {descriptor : DescriptorProto} {reader : Reader}
    (same : ∀ sub r, r.buf.length < reader.buf.length → recurse sub r = recurse' sub r) :
    decodeWith recurse pool descriptor reader = decodeWith recurse' pool descriptor reader := by
  have looped : reader.drain (decodeStep recurse pool descriptor) (.new descriptor pool) =
      reader.drain (decodeStep recurse' pool descriptor) (.new descriptor pool) := by
    refine loop_congr (fun state => state.2.buf = reader.buf) (fun state held _ => ?_)
      (fun state next held _ moved => (decodeStep_kept moved).buf.trans held) rfl
    rw [decodeStep_eq, decodeStep_eq]
    refine fieldStep_congr fun item shorter => applyItem_congr fun sub r bound => ?_
    rw [held] at shorter
    exact same sub r (Nat.lt_of_le_of_lt bound shorter)
  simp only [decodeWith, looped]

/-- Any budget above the buffer's length decodes alike. -/
theorem decodeNested_eq {descriptor : DescriptorProto} {reader : Reader} {fuel fuel' : Nat}
    (enough : reader.buf.length < fuel) (enough' : reader.buf.length < fuel') :
    decodeNested pool fuel descriptor reader = decodeNested pool fuel' descriptor reader := by
  induction fuel generalizing descriptor reader fuel' with
  | zero => omega
  | succ fuel ih =>
    cases fuel' with
    | zero => omega
    | succ fuel' => exact decodeWith_congr fun sub r shorter => ih (by omega) (by omega)

/-- The decoder calls itself. -/
theorem DynMsg.decode_eq (descriptor : DescriptorProto) (reader : Reader) :
    DynMsg.decode pool descriptor reader =
      decodeWith (DynMsg.decode pool) pool descriptor reader :=
  decodeWith_congr fun _ _ shorter => decodeNested_eq shorter (Nat.lt_succ_self _)

/-- What a sub-reader is opened for: a message, or the elements of a packed field. -/
inductive NestKind where
  | message (descriptor : DescriptorProto)
  | packed (t : FieldType)

/-- What a field's occurrence opens a sub-reader for. -/
def nestKind (pool : DescriptorPool) (field : FieldDescriptorProto) (wire : WireType) :
    Option NestKind :=
  let t := field.type.getD .string
  if t = .message ∨ t = .group then (messageType pool field).map .message
  else if Packs field wire then some (.packed t)
  else none

/-- The decode of a sub-reader's kind. -/
def decodeKind (pool : DescriptorPool) (kind : NestKind) (r : Reader) : ReflectResult Value :=
  match kind with
  | .message descriptor => do
    let dm ← DynMsg.decode pool descriptor r
    .ok (.message dm)
  | .packed t => do
    let out ← Reader.readAll (decodeScalar t) r
    .ok (.list out)

/-- From a cursor, a pass reads a body that it opens. -/
structure Meets (pool : DescriptorPool) (descriptor : DescriptorProto) (cursor r : Reader)
    (body : Slice) (kind : NestKind) : Prop where
  more : cursor.isEmpty = false
  reads : ∃ tag after field, cursor.readTag = .ok (tag, after) ∧
    declared pool descriptor tag.fieldNumber.toInt32 = some field ∧
    after.readLengthDelimited = .ok (body, r) ∧ nestKind pool field tag.wireType = some kind

/-- Decoding a message reads a body that it opens as a nested one. -/
def Extracts (pool : DescriptorPool) (parent : NestFrame NestKind) (opening : Opening) (r : Reader)
    (body : Slice) (kind : NestKind) : Prop :=
  ∃ descriptor visited state, parent.kind = .message descriptor ∧ opening = .nested ∧
    Path (fun state => !state.2.isEmpty) (decodeStep (DynMsg.decode pool) pool descriptor)
      (.new descriptor pool, parent.reader) visited state ∧
    Meets pool descriptor state.2 r body kind

variable {descriptor : DescriptorProto}

theorem Meets.kept {cursor r : Reader} {body : Slice} {kind : NestKind}
    (meets : Meets pool descriptor cursor r body kind) : Reader.Kept cursor r := by
  obtain ⟨_, _, _, _, readTag, _, readBody, _⟩ := meets
  exact (Reader.readTag_kept readTag).trans (Reader.readLengthDelimited_kept readBody)

private theorem decodeOne_fails {field : FieldDescriptorProto} {wire : WireType} {after r : Reader}
    {body : Slice} {kind : NestKind} (readBody : after.readLengthDelimited = .ok (body, r))
    (nests : nestKind pool field wire = some kind) {error : ReflectError}
    (failed : ((r.nested body).mapErr .wire >>= decodeKind pool kind) = .err error) :
    decodeOne (DynMsg.decode pool) pool field wire after = .err error := by
  rw [nestKind] at nests
  split at nests
  · rename_i message
    obtain ⟨sub, found, rfl⟩ := Option.map_eq_some_iff.mp nests
    simp only [decodeOne, if_pos message, readBody, Outcome.mapErr_ok, Outcome.ok_bind, found,
      Outcome.ofOption_some]
    cases opened : (r.nested body).mapErr ReflectError.wire with
    | ok subReader =>
      rw [opened, Outcome.ok_bind, decodeKind] at failed
      rw [Outcome.ok_bind]
      cases decoded : DynMsg.decode pool sub subReader with
      | ok _ => simp [decoded] at failed
      | err | panic | outOfFuel =>
        rw [decoded] at failed
        cases failed
        try rfl
    | err | panic | outOfFuel =>
      rw [opened] at failed
      cases failed
      try rfl
  · rename_i message
    split at nests
    · rename_i packs
      cases nests
      have asSource : wire = .lengthDelimited ∧ packedAllowed (field.type.getD .string) = true ∧
          field.label = some .repeated := ⟨packs.1, packs.2.1, packs.2.2.2⟩
      simp only [decodeOne, if_neg message, if_neg packs.2.2.1, if_pos asSource, readBody,
        Outcome.mapErr_ok, Outcome.ok_bind]
      cases opened : (r.nested body).mapErr ReflectError.wire with
      | ok sub =>
        rw [opened, Outcome.ok_bind, decodeKind] at failed
        rw [Outcome.ok_bind]
        cases decoded : Reader.readAll (decodeScalar (field.type.getD .string)) sub with
        | ok _ => simp [decoded] at failed
        | err | panic | outOfFuel =>
          rw [decoded] at failed
          cases failed
          try rfl
      | err | panic | outOfFuel =>
        rw [opened] at failed
        cases failed
        try rfl
    · cases nests

/-- A pass that meets a body does what opening and decoding it does. -/
theorem Meets.fails {state : DynamicMessage × Reader} {r : Reader} {body : Slice} {kind : NestKind}
    (meets : Meets pool descriptor state.2 r body kind) {error : ReflectError}
    (failed : ((r.nested body).mapErr .wire >>= decodeKind pool kind) = .err error) :
    decodeStep (DynMsg.decode pool) pool descriptor state = .err error := by
  obtain ⟨_, tag, after, field, readTag, found, readBody, nests⟩ := meets
  simp only [decodeStep, readTag, Outcome.mapErr_ok, Outcome.ok_bind]
  simp only [declared] at found
  cases own : descriptor.findFieldByNumber tag.fieldNumber.toInt32 with
  | some field' =>
    rw [own] at found
    cases found
    simp only [decodeOne_fails readBody nests failed, Outcome.err_bind]
  | none =>
    rw [own, Option.none_or] at found
    simp only [found, decodeOne_fails readBody nests failed, Outcome.err_bind]

/-- A decode that opens a body which cannot be decoded fails with its error. -/
theorem Extracts.fails {parent : NestFrame NestKind} {opening : Opening} {r : Reader} {body : Slice}
    {kind : NestKind} (start : parent.reader.AtStart)
    (extracts : Extracts pool parent opening r body kind) {error : ReflectError}
    (failed : ((r.nested body).mapErr .wire >>= decodeKind pool kind) = .err error) :
    decodeKind pool parent.kind parent.reader = .err error := by
  obtain ⟨descriptor, visited, state, same, _, path, meets⟩ := extracts
  have bound := path.length_le (fun state => state.2.rest.length) (fun state => state.2.Solvent)
    start.solvent fun s s' solvent _ moved => by
      rw [decodeStep_eq] at moved
      obtain ⟨item, bytes, rest, split, wire, _, _, advanced, solvent'⟩ :=
        (fieldStep_eq_ok_iff solvent).mp moved
      have positive := wire.length_pos
      refine ⟨solvent', ?_⟩
      rw [advanced.rest_eq, split, List.drop_left, List.length_append]
      omega
  have left : 0 < state.2.rest.length := by
    have inside := (Reader.isEmpty_eq_false_iff state.2).mp meets.more
    rw [Reader.rest_length, Reader.remaining]
    omega
  have looped : parent.reader.drain (decodeStep (DynMsg.decode pool) pool descriptor)
      (.new descriptor pool) = .err error := by
    refine path.loop_failed (by simp [meets.more]) (meets.fails failed) ?_
    rw [← Reader.rest_length]
    simp only at bound
    omega
  rw [same, decodeKind, DynMsg.decode_eq, decodeWith, looped]
  rfl

/-- The nesting of the dynamic decoder over a pool. -/
def nesting (pool : DescriptorPool) : Nesting where
  Kind := NestKind
  Extracts := Extracts pool
  Fails frame := decodeKind pool frame.kind frame.reader = .err (.wire .depthLimitExceeded)
  kept := by
    rintro parent opening r body kind ⟨descriptor, _, _, _, _, path, meets⟩
    have held := path.invariant (fun state => Reader.Kept parent.reader state.2) (Reader.Kept.refl _)
      fun _ _ held _ moved => held.trans (decodeStep_kept moved)
    exact held.trans meets.kept
  refused := by
    intro parent opening r body kind start extracts refused
    have nested : opening = .nested := extracts.choose_spec.choose_spec.choose_spec.2.1
    subst nested
    exact extracts.fails start (by rw [show r.nested body = _ from refused]; rfl)
  passed := by
    intro parent opening r body kind sub start extracts opened failed
    have nested : opening = .nested := extracts.choose_spec.choose_spec.choose_spec.2.1
    subst nested
    exact extracts.fails start (by rw [show r.nested body = _ from opened]; exact failed)

end TptProto.Reflect
