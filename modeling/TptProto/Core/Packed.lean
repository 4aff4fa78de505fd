import TptProto.Core.ReaderSpec
import TptProto.Core.Chunks
import TptProto.Core.UnknownSpec

/-! Packed repeated fields and map entries. -/

namespace TptProto.Core

open TptProto.Foundation

/-- The shape of the packed writers: one length-delimited field of joined elements. -/
def encodePacked {α ε : Type} (write : α → List UInt8) (field : UInt32) (values : List α) :
    Outcome ε (List UInt8) := do
  let tag ← writeTag field .lengthDelimited
  .ok (tag ++ writeLengthDelimited (values.flatMap write))

def encodePackedVarint {ε : Type} (field : UInt32) (values : List UInt64) :
    Outcome ε (List UInt8) :=
  encodePacked encodeVarint field values

def encodePackedFixed32 {ε : Type} (field : UInt32) (values : List UInt32) :
    Outcome ε (List UInt8) :=
  encodePacked writeFixed32 field values

def encodePackedFixed64 {ε : Type} (field : UInt32) (values : List UInt64) :
    Outcome ε (List UInt8) :=
  encodePacked writeFixed64 field values

/-- A length-delimited entry of a key and a value that carry their own tags. -/
def encodeMapEntry {ε : Type} (field : UInt32) (key value : List UInt8) : Outcome ε (List UInt8) := do
  let tag ← writeTag field .lengthDelimited
  .ok (tag ++ writeLengthDelimited (key ++ value))

namespace Reader

/-- `while !sub.is_empty() { out.push(read_one(&mut sub)?); }`. -/
def readAll {ε α : Type} (readOne : Reader → Outcome ε (α × Reader)) (sub : Reader) :
    Outcome ε (List α) := do
  let (out, _) ← sub.drain (fun state => do
    let (value, next) ← readOne state.2
    .ok (state.1 ++ [value], next)) []
  .ok out

def readPackedVarint {α : Type} (readOne : Reader → Result (α × Reader)) (r : Reader) :
    Result (List α × Reader) := do
  let (body, r) ← r.readLengthDelimited
  let sub ← r.nested body
  let out ← readAll readOne sub
  .ok (out, r)

def readPackedFixed32 (r : Reader) : Result (List UInt32 × Reader) := do
  let (body, r) ← r.readLengthDelimited
  if body.length % 4 ≠ 0 then
    .err (.malformedInput "packed fixed32 length not a multiple of 4")
  else do
    let sub ← r.nested body
    let out ← readAll readFixed32 sub
    .ok (out, r)

def readPackedFixed64 (r : Reader) : Result (List UInt64 × Reader) := do
  let (body, r) ← r.readLengthDelimited
  if body.length % 8 ≠ 0 then
    .err (.malformedInput "packed fixed64 length not a multiple of 8")
  else do
    let sub ← r.nested body
    let out ← readAll readFixed64 sub
    .ok (out, r)

/-- A value with the framing it has on the wire after its tag. -/
def readRawValue (wireType : WireType) (r : Reader) : Result (Slice × Reader) :=
  match wireType with
  | .varint => do
    let (_, raw, r) ← r.readVarintRaw
    .ok (raw, r)
  | .fixed32 => do
    let start := r.pos
    let (_, r) ← r.readFixed32
    let part ← r.bufSlice start (usizeAdd start 4)
    .ok (part, r)
  | .fixed64 => do
    let start := r.pos
    let (_, r) ← r.readFixed64
    let part ← r.bufSlice start (usizeAdd start 8)
    .ok (part, r)
  | .lengthDelimited => do
    let start := r.pos
    let (value, r) ← r.readVarint
    let len := value.toNat
    r.limits.checkLength len
    let stop := usizeAdd r.pos len
    if stop > r.buf.length then .err (.lengthLimitExceeded len)
    else do
      let framed ← r.bufSlice start stop
      let r ← r.setPos stop
      .ok (framed, r)
  | .startGroup | .endGroup => .err (.unexpectedWireType wireType.asU8)

/-- One pass of the entry loop: fields 1 and 2 keep their last occurrence. -/
def mapEntryStep (state : (Option Slice × Option Slice) × Reader) :
    Result ((Option Slice × Option Slice) × Reader) := do
  let (tag, er) ← state.2.readTag
  let (bytes, er) ← readRawValue tag.wireType er
  if tag.fieldNumber = 1 then .ok ((some bytes, state.1.2), er)
  else if tag.fieldNumber = 2 then .ok ((state.1.1, some bytes), er)
  else .ok (state.1, er)

def decodeMapEntryFrames (r : Reader) : Result ((Slice × Slice) × Reader) := do
  let (body, r) ← r.readLengthDelimited
  let er ← r.nested body
  let ((key, value), _) ← er.drain mapEntryStep (none, none)
  let key ← Outcome.ofOption (.malformedInput "map entry missing key") key
  .ok ((key, value.getD .empty), r)

end Reader

end TptProto.Core

/-! Packed bodies: concatenated values of one wire type. -/

namespace TptProto.Core

open TptProto.Foundation

/-- One element of a packed body. -/
def Element (wireType : WireType) (value : UnknownValue) (bytes : List UInt8) : Prop :=
  value.wireType = wireType ∧ ValueBytes value bytes

theorem element_delimited (wireType : WireType) : Delimited (Element wireType) where
  nonempty element := element.2.length_pos
  unique first second same := first.2.unique second.2 (first.1.trans second.1.symm) same

theorem Element.width32 {value : UnknownValue} {bytes : List UInt8}
    (element : Element .fixed32 value bytes) : bytes.length = 4 := by
  obtain ⟨kind, wire⟩ := element
  cases wire with
  | fixed32 width => exact width
  | varint | fixed64 | lengthDelimited => cases kind

theorem Element.width64 {value : UnknownValue} {bytes : List UInt8}
    (element : Element .fixed64 value bytes) : bytes.length = 8 := by
  obtain ⟨kind, wire⟩ := element
  cases wire with
  | fixed64 width => exact width
  | varint | fixed32 | lengthDelimited => cases kind

abbrev Elements (wireType : WireType) : List UnknownValue → List UInt8 → Prop :=
  Sequence (Element wireType)

variable {ε α : Type}

/-- Reading one value and interpreting it. -/
def readElement (lift : Error → ε) (wireType : WireType)
    (interpret : DecoderLimits → UnknownValue → Outcome ε α) (r : Reader) : Outcome ε (α × Reader) := do
  let (value, r) ← (readUnknownValue wireType r).mapErr lift
  let element ← interpret r.limits value
  .ok (element, r)

variable {lift : Error → ε} {wireType : WireType}
  {interpret : DecoderLimits → UnknownValue → Outcome ε α}

private theorem foldlM_append (f : UnknownValue → Outcome ε α) (values : List UnknownValue)
    (start : List α) :
    values.foldlM (fun out value => do
      let element ← f value
      .ok (out ++ [element])) start = (do
      let out ← values.mapM f
      .ok (start ++ out)) := by
  induction values generalizing start with
  | nil => simp
  | cons value rest ih =>
    rw [List.foldlM_cons, List.mapM_cons]
    cases f value with
    | ok element => simp [ih, List.append_assoc]
    | err | panic | outOfFuel => rfl

theorem readElement_chunked :
    Chunked (Element wireType) (fun limits value => value.Fits limits) 0
      (fun limits _ out value => do
        let element ← interpret limits value
        .ok (out ++ [element]))
      (fun state => do
        let (value, next) ← readElement lift wireType interpret state.2
        .ok (state.1 ++ [value], next)) where
  delimited := element_delimited wireType
  few := Nat.zero_le _
  step_iff := by
    intro out out' r r' solvent
    have tracked := solvent.tracked
    simp only [readElement, Outcome.bind_eq_ok, Prod.exists, Outcome.mapErr_eq_ok, Outcome.ok.injEq,
      Prod.mk.injEq, readUnknownValue_wire tracked]
    constructor
    · rintro ⟨element, _, ⟨value, next, ⟨bytes, rest, split, kind, wire, fits, budget, moved⟩, _,
        interpreted, rfl, rfl⟩, rfl, rfl⟩
      rw [moved.limits] at interpreted
      refine ⟨value, bytes, rest, split, ⟨kind, wire⟩, fits, ⟨_, interpreted, rfl⟩, moved,
        moved.tracked tracked (Nat.zero_le _), ?_, ?_⟩
      · rwa [moved.limits, moved.bytesRead, tracked.count_bytes moved.inside]
      · rw [moved.limits, moved.fieldCount]
        exact solvent.fields
    · rintro ⟨value, bytes, rest, split, ⟨kind, wire⟩, fits, ⟨element, interpreted, rfl⟩, moved,
        solvent'⟩
      have budget := solvent'.bytes
      rw [moved.limits, moved.bytesRead, tracked.count_bytes moved.inside] at budget
      rw [← moved.limits] at interpreted
      exact ⟨element, r', ⟨value, r', ⟨bytes, rest, split, kind, wire, fits, budget, moved⟩, element,
        interpreted, rfl, rfl⟩, rfl, rfl⟩

/-- A packed body reads as the interpretations of its elements. -/
theorem readAll_eq_ok_iff {r : Reader} {out : List α} (solvent : r.Solvent) :
    Reader.readAll (readElement lift wireType interpret) r = .ok out ↔
      ∃ values, Elements wireType values r.rest ∧
        Affordable (fun limits (value : UnknownValue) => value.Fits limits) 0 r values ∧
        values.mapM (interpret r.limits) = .ok out := by
  have read : Reader.readAll (readElement lift wireType interpret) r = .ok out ↔
      ∃ r', r.drain (fun state => do
        let (value, next) ← readElement lift wireType interpret state.2
        .ok (state.1 ++ [value], next)) [] = .ok (out, r') := by
    simp [Reader.readAll, Outcome.bind_eq_ok]
  rw [read, readElement_chunked.drain_eq_ok_iff solvent]
  simp [foldlM_append, Outcome.bind_eq_ok]

/-- The bytes of written values are read back as those values. -/
theorem elements_bytes {values : List UnknownValue} (kind : ∀ value ∈ values, value.wireType = wireType)
    (sized : ∀ value ∈ values, value.Sized) :
    Elements wireType values (values.flatMap UnknownValue.bytes) := by
  induction values with
  | nil => exact .nil
  | cons value rest ih =>
    exact .cons ⟨kind value (by simp), valueBytes_bytes (sized value (by simp))⟩
      (ih (fun other member => kind other (by simp [member]))
        fun other member => sized other (by simp [member]))

end TptProto.Core
