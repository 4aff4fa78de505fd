import TptProto.Core.ReaderSpec
import TptProto.Foundation.SortedMap
import TptProto.Core.Reader

/-! Storage and re-encoding of unknown fields. The map is keyed by the 32-bit
number a decoded tag carries and keeps each number's values in arrival order. -/

namespace TptProto.Core

open TptProto.Foundation

inductive UnknownValue where
  | varint (value : UInt64)
  | fixed32 (value : UInt32)
  | fixed64 (value : UInt64)
  | lengthDelimited (bytes : List UInt8)
  deriving DecidableEq, Repr

def UnknownValue.wireType : UnknownValue → WireType
  | varint _ => .varint
  | fixed32 _ => .fixed32
  | fixed64 _ => .fixed64
  | lengthDelimited _ => .lengthDelimited

/-- The body of a length-delimited value. -/
def UnknownValue.payload : UnknownValue → List UInt8
  | lengthDelimited bytes => bytes
  | _ => []

structure UnknownFieldSet where
  fields : List (UInt32 × List UnknownValue)
  totalLen : Nat
  sorted : SortedMap.Sorted fields
  deriving DecidableEq

/-- The divisions of `varint_len`, at most nine of them for 64 bits. -/
def varintLenLoop : Nat → UInt64 → Nat
  | 0, _ => 1
  | fuel + 1, value => if value ≥ 0x80 then varintLenLoop fuel (value >>> 7) + 1 else 1

def varintLen (value : UInt64) : Nat := varintLenLoop 9 value

def tagLen (field : UInt32) : Nat := varintLen (Tag.raw field .varint)

def valueLen : UnknownValue → Nat
  | .varint value => varintLen value
  | .fixed32 _ => 4
  | .fixed64 _ => 8
  | .lengthDelimited bytes => varintLen (UInt64.ofNat bytes.length) + bytes.length

/-- The bytes of a value after its tag. -/
def UnknownValue.bytes : UnknownValue → List UInt8
  | varint value => encodeVarint value
  | fixed32 value => writeFixed32 value
  | fixed64 value => writeFixed64 value
  | lengthDelimited bytes => writeLengthDelimited bytes

def writeValue {ε : Type} (field : UInt32) (value : UnknownValue) : Outcome ε (List UInt8) := do
  let tag ← writeTag field value.wireType
  .ok (tag ++ value.bytes)

/-- The match of `UnknownFieldSet::store` on the tag's wire type. -/
def readUnknownValue (wireType : WireType) (reader : Reader) : Result (UnknownValue × Reader) :=
  match wireType with
  | .varint => do
    let (value, reader) ← reader.readVarint
    .ok (.varint value, reader)
  | .fixed32 => do
    let (value, reader) ← reader.readFixed32
    .ok (.fixed32 value, reader)
  | .fixed64 => do
    let (value, reader) ← reader.readFixed64
    .ok (.fixed64 value, reader)
  | .lengthDelimited => do
    let (bytes, reader) ← reader.readLengthDelimited
    .ok (.lengthDelimited bytes.bytes, reader)
  | .startGroup | .endGroup => .err (.unexpectedWireType wireType.asU8)

namespace UnknownFieldSet

def empty : UnknownFieldSet := ⟨[], 0, SortedMap.sorted_nil⟩

def isEmpty (set : UnknownFieldSet) : Bool := set.fields.isEmpty

def len (set : UnknownFieldSet) : Nat := set.fields.length

def encodedLen (set : UnknownFieldSet) : Nat := set.totalLen

def insert (set : UnknownFieldSet) (fieldNumber : UInt32) (value : UnknownValue) :
    UnknownFieldSet where
  fields := SortedMap.upsert set.fields fieldNumber fun stored => stored.getD [] ++ [value]
  totalLen := set.totalLen + (tagLen fieldNumber + valueLen value)
  sorted := set.sorted.upsert _ _

/-- `store`: the set after the call, and the reader or the error. A set that
grew past `max_unknown_bytes` has already been changed when the error returns. -/
def store (set : UnknownFieldSet) (tag : Tag) (reader : Reader) : UnknownFieldSet × Result Reader :=
  match readUnknownValue tag.wireType reader with
  | .ok (value, reader) =>
    let set := set.insert tag.fieldNumber value
    (set, do
      reader.limits.checkUnknown set.encodedLen
      .ok reader)
  | .err error => (set, .err error)
  | .panic => (set, .panic)
  | .outOfFuel => (set, .outOfFuel)

/-- `set.store(tag, reader)?` followed by use of both. -/
def stored (set : UnknownFieldSet) (tag : Tag) (reader : Reader) :
    Result (UnknownFieldSet × Reader) := do
  let next ← (set.store tag reader).2
  .ok ((set.store tag reader).1, next)

/-- The stored values in the order `iter` yields them. -/
def entries (set : UnknownFieldSet) : List (UInt32 × UnknownValue) :=
  set.fields.flatMap fun field => field.2.map fun value => (field.1, value)

def encode {ε : Type} (set : UnknownFieldSet) : Outcome ε (List UInt8) :=
  writeEach (fun field => writeEach (writeValue field.1) field.2) set.fields

def mergeFrom (set other : UnknownFieldSet) : UnknownFieldSet :=
  other.fields.foldl (fun merged field =>
    { fields := SortedMap.upsert merged.fields field.1 fun stored => stored.getD [] ++ field.2
      totalLen := merged.totalLen + (field.2.map fun value => tagLen field.1 + valueLen value).sum
      sorted := merged.sorted.upsert _ _ }) set

end UnknownFieldSet

end TptProto.Core

/-! What every read leaves as it is: the buffer, the limits and the depth. -/

namespace TptProto.Core.Reader

open TptProto.Foundation

/-- The cursor is still over the same buffer, at the same depth, under the same limits. -/
structure Kept (r r' : Reader) : Prop where
  buf : r'.buf = r.buf
  limits : r'.limits = r.limits
  depth : r'.depth = r.depth

variable {r r' : Reader}

theorem Kept.refl (r : Reader) : Kept r r := ⟨rfl, rfl, rfl⟩

theorem Kept.trans {r₁ r₂ r₃ : Reader} (first : Kept r₁ r₂) (second : Kept r₂ r₃) : Kept r₁ r₃ :=
  ⟨second.buf.trans first.buf, second.limits.trans first.limits, second.depth.trans first.depth⟩

theorem Advanced.kept {n tags : Nat} (moved : Advanced r n tags r') : Kept r r' :=
  ⟨moved.buf, moved.limits, moved.depth⟩

/-- Even an addition that wraps moves the position only. -/
theorem advance_kept {n : Nat} (moved : r.advance n = .ok r') : Kept r r' := by
  unfold advance at moved
  split at moved
  · simp only [Outcome.bind_eq_ok, Outcome.ok.injEq] at moved
    obtain ⟨_, _, rfl⟩ := moved
    exact ⟨rfl, rfl, rfl⟩
  · cases moved

theorem readVarint_kept {value : UInt64} (read : r.readVarint = .ok (value, r')) : Kept r r' := by
  obtain ⟨_, _, _, moved⟩ := readVarint_eq_ok_iff.mp read
  exact moved.kept

theorem readTag_kept {tag : Tag} (read : r.readTag = .ok (tag, r')) : Kept r r' := by
  obtain ⟨_, _, _, _, moved⟩ := readTag_eq_ok_iff.mp read
  exact moved.kept

theorem readTag_filled {tag : Tag} (read : r.readTag = .ok (tag, r')) : 0 < r.buf.length := by
  obtain ⟨_, decoded, _, _, moved⟩ := readTag_eq_ok_iff.mp read
  have positive := Tag.decode_bounds decoded
  have inside := moved.inside
  omega

theorem readFixed32_kept {value : UInt32} (read : r.readFixed32 = .ok (value, r')) : Kept r r' :=
  (readFixed32_eq_ok_iff.mp read).2.2.2.kept

theorem readFixed64_kept {value : UInt64} (read : r.readFixed64 = .ok (value, r')) : Kept r r' :=
  (readFixed64_eq_ok_iff.mp read).2.2.2.kept

theorem readLengthDelimited_kept {body : Slice} (read : r.readLengthDelimited = .ok (body, r')) :
    Kept r r' := by
  obtain ⟨_, _, _, _, _, _, _, _, moved⟩ := readLengthDelimited_eq_ok_iff.mp read
  exact moved.kept

/-- A length-delimited body is shorter than the buffer it lies in. -/
theorem readLengthDelimited_shorter {body : Slice} (read : r.readLengthDelimited = .ok (body, r')) :
    body.length < r.buf.length := by
  obtain ⟨len, n, decoded, _, _, inside, same, _, _⟩ := readLengthDelimited_eq_ok_iff.mp read
  have bounds := decodeVarint_bounds decoded
  rw [Slice.length, same, List.length_take]
  omega

theorem readStringOwned_kept {text : String} (read : r.readStringOwned = .ok (text, r')) :
    Kept r r' := by
  simp only [readStringOwned, Outcome.bind_eq_ok, Prod.exists, Outcome.ok.injEq, Prod.mk.injEq] at read
  obtain ⟨_, _, body, _, _, _, _, _, rfl⟩ := read
  exact readLengthDelimited_kept body

theorem readAs_kept {α β : Type} {convert : α → β} {read : Reader → Result (α × Reader)}
    (kept : ∀ {value r'}, read r = .ok (value, r') → Kept r r') {value : β}
    (success : readAs convert read r = .ok (value, r')) : Kept r r' := by
  simp only [readAs, Outcome.bind_eq_ok, Prod.exists, Outcome.ok.injEq, Prod.mk.injEq] at success
  obtain ⟨_, _, source, _, rfl⟩ := success
  exact kept source

private theorem skipGroupStep_kept {skipField : WireType → Reader → Result Reader}
    (fields : ∀ wireType r r', skipField wireType r = .ok r' → Kept r r')
    {state next : Reader × Bool} (moved : skipGroupStep skipField state = .ok next) :
    Kept state.1 next.1 := by
  unfold skipGroupStep at moved
  split at moved
  · cases moved
  · simp only [Outcome.bind_eq_ok, Prod.exists] at moved
    obtain ⟨tag, after, read, moved⟩ := moved
    split at moved
    · cases moved
      exact readTag_kept read
    · simp only [Outcome.bind_eq_ok, Outcome.ok.injEq] at moved
      obtain ⟨last, skipped, rfl⟩ := moved
      exact (readTag_kept read).trans (fields _ _ _ skipped)

private theorem skipInner_plain_kept {fuel : Nat} {wireType : WireType} {depth : UInt32}
    (plain : wireType ≠ .startGroup) (skipped : skipInner fuel wireType depth r = .ok r') :
    Kept r r' := by
  unfold skipInner at skipped
  cases wireType with
  | varint =>
    simp only [Outcome.bind_eq_ok, Prod.exists, Outcome.ok.injEq] at skipped
    obtain ⟨_, _, read, rfl⟩ := skipped
    exact readVarint_kept read
  | fixed64 =>
    simp only [Outcome.bind_eq_ok, Prod.exists, Outcome.ok.injEq] at skipped
    obtain ⟨_, _, read, rfl⟩ := skipped
    exact readFixed64_kept read
  | fixed32 =>
    simp only [Outcome.bind_eq_ok, Prod.exists, Outcome.ok.injEq] at skipped
    obtain ⟨_, _, read, rfl⟩ := skipped
    exact readFixed32_kept read
  | lengthDelimited =>
    simp only [Outcome.bind_eq_ok, Prod.exists] at skipped
    obtain ⟨_, _, read, _, _, moved⟩ := skipped
    exact (readVarint_kept read).trans (advance_kept moved)
  | startGroup => exact absurd rfl plain
  | endGroup => cases skipped

theorem skipInner_kept {fuel : Nat} {wireType : WireType} {depth : UInt32}
    (skipped : skipInner fuel wireType depth r = .ok r') : Kept r r' := by
  induction fuel generalizing wireType depth r r' with
  | zero =>
    by_cases group : wireType = .startGroup
    · subst group
      cases skipped
    · exact skipInner_plain_kept group skipped
  | succ fuel ih =>
    by_cases group : wireType = .startGroup
    · subst group
      simp only [skipInner] at skipped
      split at skipped
      · cases skipped
      · simp only [Outcome.bind_eq_ok, Prod.exists, Outcome.ok.injEq] at skipped
        obtain ⟨last, _, looped, rfl⟩ := skipped
        exact (loop_invariant looped (fun state => Kept r state.1) (Kept.refl r)
          fun s s' held _ moved => held.trans
            (skipGroupStep_kept (fun _ _ _ inner => ih inner) moved)).1
    · exact skipInner_plain_kept group skipped

theorem skip_kept {wireType : WireType} (skipped : r.skip wireType = .ok r') : Kept r r' :=
  skipInner_kept skipped

end TptProto.Core.Reader
