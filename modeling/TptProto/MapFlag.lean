import TptProto.Core.MapEntry
import TptProto.Codegen.Types
import TptProto.Json.Scalar
import TptProto.Text.Print

/-! The `map_entry` flag of serialized message options, and how the crates look for it. -/

namespace TptProto

open Foundation Core Descriptor

/-- `is_map_entry` of the JSON crate, the same as the dynamic decoder's. -/
def Json.isMapEntry (desc : DescriptorProto) : Bool := Reflect.isMapEntry desc

/-- `is_map_entry` of the text crate. -/
def Text.isMapEntry (desc : DescriptorProto) : Bool := Reflect.isMapEntry desc

/-- `is_map_entry` of the code generator: the options are the flag and nothing else. -/
def Codegen.isMapEntry (options : Option (List UInt8)) : Bool := options = some [0x38, 0x01]

namespace MapFlag

def varint? : UnknownValue → Option UInt64
  | .varint value => some value
  | _ => none

/-- What the options say: the last varint under number 7 is not zero. -/
def flag (parts : List EntryPart) : Bool :=
  match ((occurrences 7 (parts.filterMap EntryPart.item?)).filterMap varint?).getLast? with
  | some value => value ≠ 0
  | none => false

/-- Every crate's test gives the flag, for the options and for the fields of a type with them. -/
structure Recognised (bytes : List UInt8) (flag : Bool) : Prop where
  reflect : ∀ desc : DescriptorProto, desc.options = some bytes → Reflect.isMapEntry desc = flag
  json : ∀ desc : DescriptorProto, desc.options = some bytes → Json.isMapEntry desc = flag
  text : ∀ desc : DescriptorProto, desc.options = some bytes → Text.isMapEntry desc = flag
  codegen : Codegen.isMapEntry (some bytes) = flag
  fields : ∀ (pool : Reflect.DescriptorPool) (field : FieldDescriptorProto) (desc : DescriptorProto),
    field.label = some .repeated → field.type = some .message →
    field.typeName.bind pool.lookupMessage = some desc → desc.options = some bytes →
    Reflect.isMapField pool field = flag ∧ Json.isMapField pool field = flag ∧
      Text.isMapField pool field = flag

/-- Two bytes stand next to each other just where the windows of a list show them. -/
theorem any_windows_iff {bytes : List UInt8} {first second : UInt8} :
    ((bytes.zip bytes.tail).any fun pair => pair = (first, second)) = true ↔
      [first, second] <:+: bytes := by
  induction bytes with
  | nil => simp
  | cons byte rest ih =>
    rw [List.infix_cons_iff, ← ih]
    cases rest with
    | nil => simp
    | cons next later =>
      simp only [List.tail_cons, List.zip_cons_cons, List.any_cons, Bool.or_eq_true,
        decide_eq_true_eq, Prod.mk.injEq, List.cons_prefix_cons, List.nil_prefix, and_true]
      simp only [eq_comm]

theorem isMapEntry_iff {desc : DescriptorProto} {bytes : List UInt8}
    (options : desc.options = some bytes) :
    Reflect.isMapEntry desc = true ↔ [0x38, 0x01] <:+: bytes := by
  simp only [Reflect.isMapEntry, options]
  exact any_windows_iff

/-- The set flag by itself. -/
private def setFlag : Item := ⟨⟨7, .varint, Tag.nonzero_seven⟩, .varint 1⟩

private theorem setFlag_bytes : setFlag.Bytes Tag.wireType [0x38, 0x01] :=
  ⟨[0x38], 56, [0x01], rfl, wireVarint_encodeVarint 56, by decide, by decide, rfl,
    .varint (wireVarint_encodeVarint 1)⟩

private theorem part_filled {part : EntryPart} {bytes : List UInt8} (wire : part.Bytes bytes) :
    0 < bytes.length := by
  cases part with
  | field item => exact Item.Bytes.length_pos wire
  | group number =>
    obtain @⟨_, first, inside, last, _, _, opens, _⟩ := wire
    have := opens.length_pos
    simp only [List.length_append]
    omega

/-- The two bytes of the flag alone are one field that sets it. -/
theorem flag_alone {parts : List EntryPart} (body : EntryBody parts [0x38, 0x01]) :
    flag parts = true := by
  cases parts with
  | nil => cases sequence_nil_iff.mp body
  | cons part rest =>
    obtain ⟨head, tail, split, here, there⟩ := sequence_cons_iff.mp body
    cases part with
    | group number =>
      -- A group starts with a tag of another wire type.
      obtain @⟨_, first, inside, last, raw, _, opens, opened, _⟩ := here
      have byte : WireVarint [0x38] 56 := wireVarint_encodeVarint 56
      have whole : [0x38] ++ [0x01] = first ++ (inside ++ last ++ tail) := by
        rw [← List.append_assoc]
        exact split
      obtain ⟨_, rfl, _⟩ := byte.unique opens whole
      have odd : (56 : UInt64).toNat = 56 := rfl
      omega
    | field item =>
      have whole : [0x38, 0x01] ++ [] = head ++ tail := split
      obtain ⟨rfl, rfl, rfl⟩ := setFlag_bytes.unique here whole
      cases rest with
      | nil => rfl
      | cons part rest =>
        obtain ⟨word, later, ended, next, _⟩ := sequence_cons_iff.mp there
        have filled := part_filled next
        simp [(List.nil_eq_append_iff.mp ended).1] at filled

/-- The tests are right exactly on options that are the set flag alone, and on options without the
flag in which its two bytes never stand next to each other. -/
theorem recognised_iff {parts : List EntryPart} {bytes : List UInt8} (body : EntryBody parts bytes) :
    Recognised bytes (flag parts) ↔
      bytes = [0x38, 0x01] ∨ flag parts = false ∧ ¬ [0x38, 0x01] <:+: bytes := by
  have shown (desc : DescriptorProto) (options : desc.options = some bytes) (result : Bool)
      (right : result = true ↔ [0x38, 0x01] <:+: bytes) : Reflect.isMapEntry desc = result := by
    rw [Bool.eq_iff_iff, isMapEntry_iff options, right]
  have recognised (result : Bool) (right : result = true ↔ [0x38, 0x01] <:+: bytes)
      (alone : Codegen.isMapEntry (some bytes) = result) : Recognised bytes result := by
    refine ⟨fun desc options => shown desc options result right,
      fun desc options => shown desc options result right,
      fun desc options => shown desc options result right, alone, ?_⟩
    intro pool field desc label type found options
    have entry := shown desc options result right
    simp [Reflect.isMapField, Json.isMapField, Text.isMapField, label, type, found, entry]
  constructor
  · intro all
    have options := all.reflect { options := some bytes } rfl
    have alone := all.codegen
    cases set : flag parts with
    | true =>
      rw [set, Codegen.isMapEntry, decide_eq_true_eq] at alone
      exact .inl (Option.some.inj alone)
    | false =>
      refine .inr ⟨rfl, fun occurs => ?_⟩
      rw [(isMapEntry_iff rfl).mpr occurs, set] at options
      cases options
  · rintro (rfl | ⟨unset, apart⟩)
    · rw [flag_alone body]
      exact recognised true (by simp) rfl
    · rw [unset]
      refine recognised false (by simpa using apart) ?_
      rw [Codegen.isMapEntry, decide_eq_false_iff_not]
      rintro same
      rw [Option.some.inj same] at apart
      exact apart (List.infix_refl _)

/-- `deprecated = true` before the flag. -/
private def deprecated : Item := ⟨⟨3, .varint, Tag.nonzero_three⟩, .varint 1⟩

private theorem deprecated_body :
    EntryBody [.field deprecated, .field setFlag] [0x18, 0x01, 0x38, 0x01] := by
  have bytes : deprecated.Bytes Tag.wireType [0x18, 0x01] :=
    ⟨[0x18], 24, [0x01], rfl, wireVarint_encodeVarint 24, by decide, by decide, rfl,
      .varint (wireVarint_encodeVarint 1)⟩
  exact EntryBody.ofItems (.cons bytes (.single setFlag_bytes))

theorem recognised_setFlag : Recognised [0x38, 0x01] true :=
  (recognised_iff (EntryBody.ofItems (.single setFlag_bytes))).mpr (.inl rfl)

/-- The code generator misses the flag beside another option. -/
theorem not_recognised :
    ¬ ∀ (parts : List EntryPart) (bytes : List UInt8), EntryBody parts bytes →
      Recognised bytes (flag parts) := by
  intro all
  exact absurd (all _ _ deprecated_body).codegen (by decide)

end MapFlag

end TptProto
