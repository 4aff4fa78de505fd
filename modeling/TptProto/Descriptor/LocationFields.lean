import TptProto.Core.Occurrence
import TptProto.Core.TableWritten
import TptProto.Descriptor.Decode

/-! The repeated integers of a location under the descriptor decoder, which skips packed chunks. -/

namespace TptProto.Descriptor

open TptProto.Foundation TptProto.Core

/-- The repeated integers under a number: the path, or the span. -/
def Location.ints (number : UInt32) (self : Location) : List Int32 :=
  if number = 1 then self.path else self.span

/-- What a single element is decoded to. -/
def intWord : UnknownValue → Int32
  | .varint word => wordInt32 word
  | _ => 0

/-- A comment, if the item is one, that the decoder accepts. -/
def TextAccepted (limits : DecoderLimits) (item : Item) : Prop :=
  item.tag.fieldNumber.toNat ∈ [3, 4, 6] → ∀ body, item.value = .lengthDelimited body →
    DecoderLimits.within limits.maxStringLen body.length = true ∧ (fromUtf8 body).isSome = true

/-- Decoding the input succeeds, with the elements in wire order. -/
def ReadsLocation (r : Reader) (number : UInt32) (pieces : List (Piece .varint)) : Prop :=
  ∃ loc, descriptors.decode .location r = .ok loc ∧
    loc.ints number = (elementsOf pieces).map intWord

/-- Of every input, the integers are read right exactly if no packed chunk of them has elements. -/
def LocationSkips (number : UInt32) : Prop :=
  ∀ (nonzero : number ≠ 0) (r : Reader) (pieces : List (Piece .varint)),
    PackedInput r number nonzero Tag.wireType pieces →
    (∀ item ∈ pieces.filterMap Piece.other?, TextAccepted r.limits item) →
    (ReadsLocation r number pieces ↔
      ∀ occurrence ∈ pieces.filterMap Piece.own?, occurrence.Chunked → occurrence.words = [])

/-- The elements that come by themselves. -/
private def singles : Piece .varint → List UnknownValue
  | .own (.single word _) => [word]
  | .own (.chunk _ _ _) | .other _ => []

/-- What an item does to a location. -/
private def pass (limits : DecoderLimits) (depth : UInt32) (self : Location) (item : Item) :
    Result Location :=
  Table.pass (T := descriptors) descriptors.decode .location limits depth self item

section Parts

variable {number : UInt32} {limits : DecoderLimits}

private theorem numbered (which : number = 1 ∨ number = 2) (self : Location) (value : Int32) :
    ∃ set : Int32 → Location → Location, Location.arms number .varint = some (.int32 set) ∧
      (set value self).ints number = self.ints number ++ [value] := by
  rcases which with rfl | rfl
  · exact ⟨_, rfl, rfl⟩
  · exact ⟨_, rfl, rfl⟩

private theorem pass_own (nonzero : number ≠ 0) (limits : DecoderLimits) (depth : UInt32)
    (which : number = 1 ∨ number = 2) (occurrence : Occurrence .varint)
    (self : Location) :
    ∃ next, pass limits depth self
        ((Piece.own occurrence).item number nonzero) = .ok next ∧
      next.ints number = self.ints number ++ (singles (.own occurrence)).map intWord := by
  cases occurrence with
  | single word fits =>
    cases word with
    | varint bits =>
      obtain ⟨set, found, added⟩ := numbered which self (wordInt32 bits)
      refine ⟨set (wordInt32 bits) self, ?_, added⟩
      have arms : descriptors.arms .location number .varint = some (.int32 set) := found
      simp only [pass, Table.pass, Piece.item, Occurrence.value, UnknownValue.wireType, arms, Table.takeArm]
      rfl
    | fixed32 | fixed64 | lengthDelimited => cases fits
  | chunk words body wire =>
    refine ⟨self, ?_, by simp [singles]⟩
    rcases which with rfl | rfl <;> rfl

/-- What the arm of another field keeps. -/
private theorem arms_other (which : number = 1 ∨ number = 2) {other : UInt32} (differs : other ≠ number)
    {wireType : WireType} {arm : DescriptorArm Location}
    (found : Location.arms other wireType = some arm) :
    (wireType = .varint ∧ ∃ set, arm = .int32 set ∧
        ∀ value (self : Location), (set value self).ints number = self.ints number) ∨
      (wireType = .lengthDelimited ∧ other.toNat ∈ [3, 4, 6] ∧ ∃ set, arm = .string set ∧
        ∀ text (self : Location), (set text self).ints number = self.ints number) := by
  unfold Location.arms at found
  split at found <;> simp only [Option.some.injEq, reduceCtorEq] at found
  · rename_i first
    obtain rfl : other = 1 := UInt32.toNat_inj.mp first
    obtain rfl := which.resolve_left differs.symm
    subst found
    exact .inl ⟨rfl, _, rfl, fun _ _ => rfl⟩
  · rename_i second
    obtain rfl : other = 2 := UInt32.toNat_inj.mp second
    obtain rfl := which.resolve_right differs.symm
    subst found
    exact .inl ⟨rfl, _, rfl, fun _ _ => rfl⟩
  all_goals
    rename_i numbered
    subst found
    exact .inr ⟨rfl, by rw [numbered]; decide, _, rfl, fun _ _ => rfl⟩

/-- Another field is decoded and leaves the integers alone. -/
private theorem pass_other (depth : UInt32) (which : number = 1 ∨ number = 2) {item : Item}
    (differs : item.tag.fieldNumber ≠ number) (kind : item.value.wireType = item.tag.wireType)
    (text : TextAccepted limits item) (self : Location) :
    ∃ next, pass limits depth self item = .ok next ∧
      next.ints number = self.ints number := by
  cases found : Location.arms item.tag.fieldNumber item.tag.wireType with
  | none =>
    have arms : descriptors.arms .location item.tag.fieldNumber item.tag.wireType = none := found
    refine ⟨self, ?_, rfl⟩
    simp only [pass, Table.pass, arms]
    rfl
  | some arm =>
    have arms : descriptors.arms .location item.tag.fieldNumber item.tag.wireType = some arm := found
    rcases arms_other which differs found with ⟨varint, set, rfl, kept⟩ | ⟨string, comment, set, rfl, kept⟩
    · cases value : item.value with
      | varint bits =>
        refine ⟨set (wordInt32 bits) self, ?_, kept (wordInt32 bits) self⟩
        simp only [pass, Table.pass, arms, value, Table.takeArm]
        rfl
      | fixed32 | fixed64 | lengthDelimited =>
        rw [value, varint] at kind
        cases kind
    · cases value : item.value with
      | lengthDelimited body =>
        obtain ⟨short, valid⟩ := text comment body value
        obtain ⟨decoded, here⟩ := Option.isSome_iff_exists.mp valid
        have admitted : limits.checkString body.length = .ok () := DecoderLimits.check_eq_ok.mpr short
        refine ⟨set decoded self, ?_, kept decoded self⟩
        simp only [pass, Table.pass, arms, value, Table.takeArm, admitted, Outcome.ok_bind, here,
          Outcome.ofOption]
        rfl
      | varint | fixed32 | fixed64 =>
        rw [value, string] at kind
        cases kind

/-- The loop keeps the elements that come by themselves. -/
private theorem foldlM_pass (nonzero : number ≠ 0) (depth : UInt32)
    (which : number = 1 ∨ number = 2) {pieces : List (Piece .varint)}
    (others : ∀ item ∈ pieces.filterMap Piece.other?, item.tag.fieldNumber ≠ number ∧
      item.value.wireType = item.tag.wireType ∧ TextAccepted limits item) (self : Location) :
    ∃ final, (pieces.map (Piece.item number nonzero)).foldlM (pass limits depth) self = .ok final ∧
      final.ints number = self.ints number ++ (pieces.flatMap singles).map intWord := by
  induction pieces generalizing self with
  | nil => exact ⟨self, rfl, by simp⟩
  | cons piece rest ih =>
    have restOthers := fun item member => others item (by
      rw [List.filterMap_cons]
      split
      · exact member
      · exact List.mem_cons_of_mem _ member)
    cases piece with
    | own occurrence =>
      obtain ⟨next, passed, added⟩ := pass_own nonzero limits depth which occurrence self
      obtain ⟨final, folded, ints⟩ := ih restOthers next
      refine ⟨final, ?_, ?_⟩
      · rw [List.map_cons, List.foldlM_cons, passed]
        exact folded
      · rw [ints, added, List.flatMap_cons, List.map_append, List.append_assoc]
    | other item =>
      obtain ⟨differs, kind, text⟩ := others item (List.mem_filterMap.mpr ⟨_, List.mem_cons_self, rfl⟩)
      obtain ⟨next, passed, kept⟩ := pass_other depth which differs kind text self
      obtain ⟨final, folded, ints⟩ := ih restOthers next
      refine ⟨final, ?_, ?_⟩
      · rw [List.map_cons, List.foldlM_cons]
        simp only [Piece.item, passed]
        exact folded
      · rw [ints, kept, List.flatMap_cons, singles, List.nil_append]

end Parts

private theorem singles_length (pieces : List (Piece .varint)) :
    (pieces.flatMap singles).length ≤ (elementsOf pieces).length ∧
      ((pieces.flatMap singles).length = (elementsOf pieces).length →
        ∀ occurrence ∈ pieces.filterMap Piece.own?, occurrence.Chunked → occurrence.words = []) := by
  induction pieces with
  | nil => simp [elementsOf]
  | cons piece rest ih =>
    obtain ⟨bound, exact'⟩ := ih
    cases piece with
    | other item => exact ⟨bound, exact'⟩
    | own occurrence =>
      have split : elementsOf (Piece.own occurrence :: rest) = occurrence.words ++ elementsOf rest := rfl
      rw [split, List.flatMap_cons, List.length_append, List.length_append]
      cases occurrence with
      | single word fits =>
        refine ⟨by simpa [singles, Occurrence.words] using bound, fun same => ?_⟩
        have left := exact' (by simpa [singles, Occurrence.words] using same)
        intro occurrence member chunked
        rcases List.mem_cons.mp member with rfl | later
        · exact chunked.elim
        · exact left occurrence later chunked
      | chunk words body wire =>
        simp only [singles, Occurrence.words, List.length_nil, Nat.zero_add]
        refine ⟨by omega, fun same => ?_⟩
        have none : words = [] := List.eq_nil_of_length_eq_zero (by omega)
        have left := exact' (by omega)
        intro occurrence member chunked
        rcases List.mem_cons.mp member with rfl | later
        · exact none
        · exact left occurrence later chunked

private theorem singles_all {pieces : List (Piece .varint)}
    (empty : ∀ occurrence ∈ pieces.filterMap Piece.own?, occurrence.Chunked → occurrence.words = []) :
    pieces.flatMap singles = elementsOf pieces := by
  induction pieces with
  | nil => rfl
  | cons piece rest ih =>
    cases piece with
    | other item => exact ih empty
    | own occurrence =>
      have later := ih fun other member => empty other (List.mem_cons_of_mem _ member)
      have split : elementsOf (Piece.own occurrence :: rest) = occurrence.words ++ elementsOf rest := rfl
      rw [split, List.flatMap_cons, later]
      cases occurrence with
      | single word fits => rfl
      | chunk words body wire =>
        have none := empty (.chunk words body wire) List.mem_cons_self trivial
        rw [none, singles]

/-- A location's integers are read right exactly if every packed chunk of them is empty. -/
theorem readsLocation_iff {r : Reader} {number : UInt32} {nonzero : number ≠ 0}
    (which : number = 1 ∨ number = 2) {pieces : List (Piece .varint)}
    (input : PackedInput r number nonzero Tag.wireType pieces)
    (texts : ∀ item ∈ pieces.filterMap Piece.other?, TextAccepted r.limits item) :
    ReadsLocation r number pieces ↔
      ∀ occurrence ∈ pieces.filterMap Piece.own?, occurrence.Chunked → occurrence.words = [] := by
  have wire : Items Tag.wireType (pieces.map (Piece.item number nonzero)) r.rest :=
    input.wire.rewire fun item _ => by simp [wireAround]
  have kinds : ∀ item ∈ pieces.map (Piece.item number nonzero), item.value.wireType = item.tag.wireType :=
    items_kind wire
  obtain ⟨final, folded, ints⟩ := foldlM_pass nonzero r.depth which (fun item member => by
      obtain ⟨piece, inside, held⟩ := List.mem_filterMap.mp member
      cases piece with
      | own occurrence => cases held
      | other other =>
        cases held
        exact ⟨input.others item member, kinds item (List.mem_map.mpr ⟨_, inside, rfl⟩),
          texts item member⟩) ({} : Location)
  have decoded : descriptors.decode .location r = .ok final :=
    Table.decode_passes input.solvent wire input.affords folded
  have held : final.ints number = (pieces.flatMap singles).map intWord := by
    rw [ints]
    rcases which with rfl | rfl <;> rfl
  constructor
  · rintro ⟨loc, here, same⟩
    obtain rfl := Outcome.ok.inj (decoded.symm.trans here)
    refine (singles_length pieces).2 ?_
    have lengths := congrArg List.length (held.symm.trans same)
    rwa [List.length_map, List.length_map] at lengths
  · intro empty
    exact ⟨final, decoded, by rw [held, singles_all empty]⟩

end TptProto.Descriptor
