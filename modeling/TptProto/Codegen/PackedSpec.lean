import TptProto.Codegen.MergeSpec
import TptProto.Core.Occurrence

/-! What the emitted packed arms make of a packed body: the `raw` of each of its elements. -/

namespace TptProto.Codegen

open TptProto.Foundation TptProto.Core TptProto.Descriptor

/-- The types that have a packed form. -/
def TyRef.Packable : TyRef → Prop
  | .enum _ => True
  | .scalar t => t ≠ .string ∧ t ≠ .bytes ∧ t ≠ .message ∧ t ≠ .group ∧ t ≠ .enum
  | .message _ => False

instance (ty : TyRef) : Decidable ty.Packable := by
  cases ty <;> unfold TyRef.Packable <;> infer_instance

theorem TyRef.Packable.plain {ty : TyRef} (packable : ty.Packable) : ty.Plain := by
  cases ty with
  | message fqn => exact packable.elim
  | enum fqn => exact ⟨by simp, by simp, by simp⟩
  | scalar t => exact ⟨by simpa using packable.2.2.2.1, by simpa using packable.2.2.1,
      by simpa using packable.2.2.2.2⟩

/-- Code whose closure reads a primitive varint, where it calls a closure. -/
def PackedDecode.Readable (code : PackedDecode) : Prop :=
  code.form = .varint → (scalarRust code.readOne).isSome = true ∧ code.readOne ≠ .enum ∧
    primWire code.readOne = .varint

theorem interpretPrim_varint {t : FieldType} (known : (scalarRust t).isSome = true)
    (notEnum : t ≠ .enum) (wire : primWire t = .varint) (word : UInt64) :
    ∃ v, interpretPrim t (.varint word) = .ok v := by
  cases t with
  | int32 | int64 | uint32 | uint64 | bool | sint32 | sint64 => exact ⟨_, rfl⟩
  | enum => exact absurd rfl notEnum
  | string | bytes | message | group => simp [scalarRust] at known
  | fixed32 | sfixed32 | float | fixed64 | sfixed64 | double => cases wire

/-- The `raw` of an element. -/
def PackedDecode.rawWord (code : PackedDecode) (word : UnknownValue) : Val :=
  match code.form, word with
  | .varint, word =>
    match interpretPrim code.readOne word with
    | .ok raw => raw
    | _ => .bool false
  | .fixed32, .fixed32 bits => .u32 bits
  | .fixed64, .fixed64 bits => .u64 bits
  | _, _ => .bool false

private def bits32 (_ : DecoderLimits) : UnknownValue → Result UInt32
  | .fixed32 bits => .ok bits
  | _ => .panic

private def bits64 (_ : DecoderLimits) : UnknownValue → Result UInt64
  | .fixed64 bits => .ok bits
  | _ => .panic

private def word32 : UnknownValue → UInt32
  | .fixed32 bits => bits
  | _ => 0

private def word64 : UnknownValue → UInt64
  | .fixed64 bits => bits
  | _ => 0

private theorem readFixed32_element : Reader.readFixed32 = readElement id .fixed32 bits32 := by
  funext r
  simp only [readElement, readUnknownValue, Outcome.mapErr_id]
  cases r.readFixed32 <;> rfl

private theorem readFixed64_element : Reader.readFixed64 = readElement id .fixed64 bits64 := by
  funext r
  simp only [readElement, readUnknownValue, Outcome.mapErr_id]
  cases r.readFixed64 <;> rfl

/-- The `raw`s of a packed body. -/
theorem PackedDecode.raws_elements {code : PackedDecode} (readable : code.Readable)
    {limits : DecoderLimits} {depth : UInt32} {words : List UnknownValue} {body : List UInt8}
    (wire : Elements code.form.wireType words body) (short : body.length < 2 ^ 63)
    (budget : DecoderLimits.within limits.maxBytes body.length = true)
    (shallow : depth + 1 ≤ limits.maxDepth) :
    code.raws limits depth body = .ok (words.map code.rawWord) := by
  have opened : Reader.nestedAt limits depth (.ofBytes body) =
      .ok (Reader.childAt limits depth (.ofBytes body)) := Reader.nestedAt_eq_ok_iff.mpr ⟨shallow, rfl⟩
  have kinds : ∀ word ∈ words, word.wireType = code.form.wireType :=
    wire.forall fun _ _ element => element.1
  unfold PackedDecode.raws PackedDecode.rawWord
  cases form : code.form with
  | varint =>
    obtain ⟨known, notEnum, varint⟩ := readable form
    have read : readPrim code.readOne = readElement id .varint fun _ => interpretPrim code.readOne := by
      funext r
      simp only [readPrim_eq known notEnum, varint, readElement, Outcome.mapErr_id]
    rw [form] at wire kinds
    simp only [opened, Outcome.ok_bind, read]
    refine readAll_elements wire (by decide) short budget fun word member => ?_
    cases word with
    | varint bits =>
      obtain ⟨raw, decoded⟩ := interpretPrim_varint known notEnum varint bits
      simp only [decoded]
    | fixed32 | fixed64 | lengthDelimited => cases kinds _ member
  | fixed32 =>
    rw [form] at wire kinds
    have whole : body.length = words.length * 4 := wire.length_eq fun _ _ element => element.width32
    have read : Reader.readAll Reader.readFixed32 (Reader.childAt limits depth (.ofBytes body)) =
        .ok (words.map word32) := by
      rw [readFixed32_element]
      refine readAll_elements wire (by decide) short budget fun word member => ?_
      cases word with
      | fixed32 bits => rfl
      | varint | fixed64 | lengthDelimited => cases kinds _ member
    simp only [opened, Outcome.ok_bind, read, List.map_map]
    rw [if_neg (by omega)]
    refine congrArg Outcome.ok (List.map_congr_left fun word member => ?_)
    cases word with
    | fixed32 bits => rfl
    | varint | fixed64 | lengthDelimited => cases kinds _ member
  | fixed64 =>
    rw [form] at wire kinds
    have whole : body.length = words.length * 8 := wire.length_eq fun _ _ element => element.width64
    have read : Reader.readAll Reader.readFixed64 (Reader.childAt limits depth (.ofBytes body)) =
        .ok (words.map word64) := by
      rw [readFixed64_element]
      refine readAll_elements wire (by decide) short budget fun word member => ?_
      cases word with
      | fixed64 bits => rfl
      | varint | fixed32 | lengthDelimited => cases kinds _ member
    simp only [opened, Outcome.ok_bind, read, List.map_map]
    rw [if_neg (by omega)]
    refine congrArg Outcome.ok (List.map_congr_left fun word member => ?_)
    cases word with
    | fixed64 bits => rfl
    | varint | fixed32 | lengthDelimited => cases kinds _ member

end TptProto.Codegen
