import TptProto.Core.MapInput
import TptProto.Core.FieldLoop

/-! Input with occurrences of a repeated field, single elements and packed chunks, in
between the items of other fields. -/

namespace TptProto.Core

open TptProto.Foundation

/-- One occurrence of a repeated field whose elements have a wire type. -/
inductive Occurrence (kind : WireType) where
  | single (word : UnknownValue) (fits : word.wireType = kind)
  | chunk (words : List UnknownValue) (body : List UInt8) (wire : Elements kind words body)

namespace Occurrence

variable {kind : WireType}

/-- The elements it carries. -/
def words : Occurrence kind → List UnknownValue
  | .single word _ => [word]
  | .chunk words _ _ => words

/-- The value after its tag. -/
def value : Occurrence kind → UnknownValue
  | .single word _ => word
  | .chunk _ body _ => .lengthDelimited body

/-- The chunk of no elements. -/
def empty : Occurrence kind := .chunk [] [] .nil

def Chunked : Occurrence kind → Prop
  | .single _ _ => False
  | .chunk _ _ _ => True

theorem words_kind (occurrence : Occurrence kind) :
    ∀ word ∈ occurrence.words, word.wireType = kind := by
  cases occurrence with
  | single word fits => simpa [words] using fits
  | chunk words body wire => exact wire.forall fun _ _ element => element.1

end Occurrence

/-- A piece of an input: an occurrence of the field, or an item of another one. -/
inductive Piece (kind : WireType) where
  | own (occurrence : Occurrence kind)
  | other (item : Item)

namespace Piece

variable {kind : WireType}

/-- The occurrence that a piece of the field is. -/
def own? : Piece kind → Option (Occurrence kind)
  | .own occurrence => some occurrence
  | .other _ => none

def other? : Piece kind → Option Item
  | .own _ => none
  | .other item => some item

/-- What the elements of an occurrence are read as. -/
def values {α : Type} (read : UnknownValue → α) : Piece kind → Option (List α)
  | .own occurrence => some (occurrence.words.map read)
  | .other _ => none

/-- The piece as an item, under the field's number. -/
def item (number : UInt32) (nonzero : number ≠ 0) : Piece kind → Item
  | .own occurrence => ⟨⟨number, occurrence.value.wireType, nonzero⟩, occurrence.value⟩
  | .other item => item

end Piece

/-- The field's elements in wire order. -/
def elementsOf {kind : WireType} (pieces : List (Piece kind)) : List UnknownValue :=
  (pieces.filterMap Piece.own?).flatMap Occurrence.words

theorem values_elementsOf {kind : WireType} {α : Type} (read : UnknownValue → α)
    (pieces : List (Piece kind)) :
    (pieces.filterMap (Piece.values read)).flatten = (elementsOf pieces).map read := by
  induction pieces with
  | nil => rfl
  | cons piece rest ih =>
    cases piece with
    | own occurrence =>
      have split : elementsOf (Piece.own occurrence :: rest) = occurrence.words ++ elementsOf rest := rfl
      have first : (Piece.own occurrence :: rest).filterMap (Piece.values read) =
        occurrence.words.map read :: rest.filterMap (Piece.values read) := rfl
      rw [first, split, List.flatten_cons, ih, List.map_append]
    | other item => exact ih

/-- The wire type that an input's values are written with: the tag's own for the field. -/
def wireAround (number : UInt32) (wireOf : Tag → WireType) (tag : Tag) : WireType :=
  if tag.fieldNumber = number then tag.wireType else wireOf tag

/-- The unread input is these pieces, within the limits. -/
structure PackedInput (r : Reader) (number : UInt32) (nonzero : number ≠ 0) (wireOf : Tag → WireType)
    {kind : WireType} (pieces : List (Piece kind)) : Prop where
  solvent : r.Solvent
  others : ∀ item ∈ pieces.filterMap Piece.other?, item.tag.fieldNumber ≠ number
  wire : Items (wireAround number wireOf) (pieces.map (Piece.item number nonzero)) r.rest
  affords : Affords r (pieces.map (Piece.item number nonzero))
  bodies : ∀ occurrence ∈ pieces.filterMap Piece.own?,
    DecoderLimits.within r.limits.maxBytes occurrence.value.payload.length = true
  shallow : r.depth + 1 ≤ r.limits.maxDepth

/-- A reader whose unread input is the other fields of an input alone. -/
structure Apart (r apart : Reader) (wireOf : Tag → WireType) {kind : WireType}
    (pieces : List (Piece kind)) : Prop where
  solvent : apart.Solvent
  limits : apart.limits = r.limits
  depth : apart.depth = r.depth
  wire : Items wireOf (pieces.filterMap Piece.other?) apart.rest

namespace PackedInput

variable {r : Reader} {number : UInt32} {nonzero : number ≠ 0} {wireOf : Tag → WireType}
  {kind : WireType} {pieces : List (Piece kind)}

theorem short (input : PackedInput r number nonzero wireOf pieces) {occurrence : Occurrence kind}
    (member : .own occurrence ∈ pieces) : occurrence.value.payload.length < 2 ^ 63 := by
  have bound := Items.payload_length input.wire
    (List.mem_map_of_mem (f := Piece.item number nonzero) member)
  have inside := r.buf.length_lt
  rw [Reader.rest_length, Reader.remaining] at bound
  simp only [Piece.item, Slice.length] at bound
  omega

theorem body (input : PackedInput r number nonzero wireOf pieces) {occurrence : Occurrence kind}
    (member : .own occurrence ∈ pieces) :
    DecoderLimits.within r.limits.maxBytes occurrence.value.payload.length = true :=
  input.bodies occurrence (List.mem_filterMap.mpr ⟨_, member, rfl⟩)

/-- Items alone, as the pieces' fold sees them. -/
theorem foldlM_others {ε σ α : Type} (nonzero : number ≠ 0) (read : UnknownValue → α)
    (apply : σ → Item → Outcome ε σ) (start : σ) :
    (pieces.filter fun piece => (piece.values read).isNone).foldlM
        (fun state piece => apply state (piece.item number nonzero)) start =
      (pieces.filterMap Piece.other?).foldlM apply start := by
  induction pieces generalizing start with
  | nil => rfl
  | cons piece rest ih =>
    cases piece with
    | own occurrence =>
      rw [List.filter_cons_of_neg (by simp [Piece.values]), List.filterMap_cons_none rfl]
      exact ih start
    | other item =>
      have held : (Piece.other item :: rest).filterMap Piece.other? = item :: rest.filterMap Piece.other? :=
        List.filterMap_cons_some rfl
      rw [List.filter_cons_of_pos rfl, held, List.foldlM_cons, List.foldlM_cons]
      exact Outcome.bind_congr fun next _ => ih next

end PackedInput

section Body

variable {ε α : Type} {lift : Error → ε} {kind : WireType}
  {interpret : DecoderLimits → UnknownValue → Outcome ε α}

/-- A packed body reads as its elements. -/
theorem readAll_elements {limits : DecoderLimits} {depth : UInt32} {words : List UnknownValue}
    {body : List UInt8} (wire : Elements kind words body) (fixed : kind ≠ .lengthDelimited)
    (short : body.length < 2 ^ 63)
    (budget : DecoderLimits.within limits.maxBytes body.length = true) {read : UnknownValue → α}
    (total : ∀ word ∈ words, interpret limits word = .ok (read word)) :
    Reader.readAll (readElement lift kind interpret) (Reader.childAt limits depth (.ofBytes body)) =
      .ok (words.map read) := by
  have solvent : (Reader.childAt limits depth (.ofBytes body)).Solvent :=
    ⟨⟨Nat.le_refl _, Nat.le_refl _⟩, DecoderLimits.within_zero _, DecoderLimits.within_zero _⟩
  refine (readAll_eq_ok_iff solvent).mpr ⟨words, ?_, ⟨fun word member => ?_, ?_, ?_⟩,
    Outcome.mapM_ok total⟩
  · rwa [Reader.childAt_rest, Slice.bytes_ofBytes short]
  · have kinds : ∀ word ∈ words, word.wireType = kind := wire.forall fun _ _ element => element.1
    have same := kinds word member
    cases word with
    | lengthDelimited => exact absurd same.symm fixed
    | varint | fixed32 | fixed64 => trivial
  · rw [Reader.childAt_rest, Slice.bytes_ofBytes short]
    simpa [Reader.childAt] using budget
  · simp [Reader.childAt, DecoderLimits.within_zero]

end Body

section Lone

variable {number : UInt32} {nonzero : number ≠ 0} {kind : WireType} {wireOf : Tag → WireType}

/-- The bytes of a tag. Any number has a tag on the wire. -/
def tagWord (number : UInt32) (wireType : WireType) : List UInt8 :=
  encodeVarint (UInt64.ofNat (8 * number.toNat + wireType.asU8.toNat))

theorem tagWord_wire (number : UInt32) (wireType : WireType) :
    ∃ raw, WireVarint (tagWord number wireType) raw ∧ number.toNat = raw.toNat / 8 % 2 ^ 32 ∧
      wireType.asU8.toNat = raw.toNat % 8 := by
  have low := wireType.asU8_lt
  have small := number.toNat_lt
  have raw : (UInt64.ofNat (8 * number.toNat + wireType.asU8.toNat)).toNat =
      8 * number.toNat + wireType.asU8.toNat :=
    UInt64.toNat_ofNat_of_lt' (by simp only [UInt64.size]; omega)
  refine ⟨_, wireVarint_encodeVarint _, ?_, ?_⟩
  · rw [raw]
    omega
  · rw [raw]
    omega

/-- A tag and any value after it. -/
theorem tagWord_item (wireType : WireType) {value : UnknownValue} {bytes : List UInt8}
    (wire : ValueBytes value bytes) :
    Item.Bytes (fun _ => value.wireType) ⟨⟨number, wireType, nonzero⟩, value⟩
      (tagWord number wireType ++ bytes) := by
  obtain ⟨raw, tag, numbered, kind⟩ := tagWord_wire number wireType
  exact ⟨_, raw, _, rfl, tag, numbered, kind, rfl, wire⟩

/-- The bytes of one occurrence and nothing else. -/
def Occurrence.wire (number : UInt32) (occurrence : Occurrence kind) : List UInt8 :=
  tagWord number occurrence.value.wireType ++ occurrence.value.bytes

/-- A reader of one occurrence, without limits. -/
def Occurrence.lone (number : UInt32) (occurrence : Occurrence kind) : Reader :=
  Reader.withLimits (.ofBytes (occurrence.wire number)) .unlimited

variable {occurrence : Occurrence kind}

theorem Occurrence.lone_rest (short : occurrence.value.bytes.length < 2 ^ 62) :
    (occurrence.lone number).rest = occurrence.wire number := by
  have tag := (encodeVarint_length_bounds
    (UInt64.ofNat (8 * number.toNat + occurrence.value.wireType.asU8.toNat))).2
  rw [Occurrence.lone, Reader.withLimits_rest, Slice.bytes_ofBytes]
  simp only [Occurrence.wire, tagWord, List.length_append]
  omega

theorem Occurrence.lone_input (sized : occurrence.value.Sized)
    (short : occurrence.value.bytes.length < 2 ^ 62) :
    PackedInput (occurrence.lone number) number nonzero wireOf [.own occurrence] where
  solvent := Reader.withLimits_solvent _ _
  others := by simp [Piece.other?]
  wire := by
    rw [lone_rest short]
    refine Items.rewire (.single (tagWord_item _ (valueBytes_bytes sized))) fun item member => ?_
    rw [List.mem_singleton.mp member]
    simp [wireAround, Piece.item]
  affords := by
    refine ⟨fun item member => ?_, rfl, rfl⟩
    rw [List.mem_singleton.mp member]
    cases held : occurrence.value <;> simp [Piece.item, held, UnknownValue.Fits]
    rfl
  bodies := fun _ _ => rfl
  shallow := (by decide : (0 : UInt32) + 1 ≤ DecoderLimits.unlimited.maxDepth)

theorem Occurrence.lone_apart :
    Apart (occurrence.lone number) (Reader.withLimits .empty .unlimited) wireOf [Piece.own occurrence] where
  solvent := Reader.withLimits_solvent _ _
  limits := rfl
  depth := rfl
  wire := .nil

theorem Occurrence.empty_sized (kind : WireType) : (Occurrence.empty : Occurrence kind).value.Sized :=
  (by decide : (0 : Nat) < 2 ^ 64)

theorem Occurrence.empty_short (kind : WireType) :
    (Occurrence.empty : Occurrence kind).value.bytes.length < 2 ^ 62 :=
  (by decide : (writeLengthDelimited []).length < 2 ^ 62)

/-- A chunk without elements, read as a value that is zero. -/
theorem Occurrence.lone_zero (kind : WireType) :
    Item.Bytes (fun _ => .varint) ⟨⟨number, .lengthDelimited, nonzero⟩, .varint 0⟩
      ((Occurrence.empty : Occurrence kind).wire number) :=
  tagWord_item .lengthDelimited (valueBytes_bytes trivial)

end Lone

section Laid

variable {wireOf : Tag → WireType}

/-- The bytes of a tag with any number and of a value after it. -/
def Item.laid (item : Item) : List UInt8 :=
  tagWord item.tag.fieldNumber item.tag.wireType ++ item.value.bytes

theorem Item.laid_length (item : Item) : item.laid.length ≤ 10 + item.value.bytes.length := by
  have tag := (encodeVarint_length_bounds
    (UInt64.ofNat (8 * item.tag.fieldNumber.toNat + item.tag.wireType.asU8.toNat))).2
  simp only [Item.laid, tagWord, List.length_append]
  omega

/-- An item whose bytes are read back, with the wire type chosen for its tag. -/
structure Item.Layable (wireOf : Tag → WireType) (item : Item) : Prop where
  kind : item.value.wireType = wireOf item.tag
  sized : item.value.Sized

theorem items_laid {items : List Item} (layable : ∀ item ∈ items, item.Layable wireOf) :
    Items wireOf items (items.flatMap Item.laid) := by
  induction items with
  | nil => exact .nil
  | cons item rest ih =>
    have here := layable item (by simp)
    exact .cons ((tagWord_item _ (valueBytes_bytes here.sized)).rewire here.kind)
      (ih fun other member => layable other (by simp [member]))

/-- Without limits every list of items is affordable. -/
theorem affords_unlimited {r : Reader} (limits : r.limits = .unlimited) (items : List Item) :
    Affords r items := by
  refine ⟨fun item _ => ?_, by rw [limits]; rfl, by rw [limits]; rfl⟩
  rw [limits]
  cases item.value <;> first | rfl | trivial

end Laid

end TptProto.Core
