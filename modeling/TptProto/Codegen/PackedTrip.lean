import TptProto.Codegen.PackedSpec

/-! The packed code emitted for a field against itself: which lists its decoder gets
back from what its encoder writes. -/

namespace TptProto.Codegen

open TptProto.Foundation TptProto.Core TptProto.Descriptor

/-- A value of a packable type. -/
def TyRef.Shapes (ty : TyRef) (value : GenValue) : Prop :=
  match ty, value with
  | .enum _, .enum _ => True
  | .scalar t, .prim v => scalarRust t = some v.prim
  | _, _ => False

instance (ty : TyRef) (value : GenValue) : Decidable (ty.Shapes value) :=
  match ty, value with
  | .enum _, .enum _ => .isTrue trivial
  | .scalar t, .prim v => inferInstanceAs (Decidable (scalarRust t = some v.prim))
  | .enum _, .prim _ | .enum _, .string _ | .enum _, .bytes _ | .enum _, .message _ => .isFalse id
  | .scalar _, .enum _ | .scalar _, .string _ | .scalar _, .bytes _ | .scalar _, .message _ =>
    .isFalse id
  | .message _, _ => .isFalse id

/-- The value an item is written as. -/
def PackedForm.word : PackedForm → Val → UnknownValue
  | .varint, v => .varint v.asU64
  | .fixed32, v => .fixed32 v.asU32
  | .fixed64, v => .fixed64 v.asU64

/-- The values a list's elements are written as. -/
def PackedEncode.words (code : PackedEncode) (schema : Schema) (ty : TyRef)
    (values : List GenValue) : List UnknownValue :=
  values.map fun v => code.form.word (Codegen.run code.closure (operand schema ty v))

/-- The packed body of a list. -/
def PackedEncode.body (code : PackedEncode) (schema : Schema) (ty : TyRef)
    (values : List GenValue) : List UInt8 :=
  (code.words schema ty values).flatMap UnknownValue.bytes

/-- A reader at the top of a buffer accepts one packed field with this body. -/
structure Admits (limits : DecoderLimits) (number : UInt32) (body : List UInt8) : Prop where
  memory : (encodeVarint (Tag.raw number .lengthDelimited)).length +
    (writeLengthDelimited body).length < 2 ^ 63
  length : DecoderLimits.within limits.maxLengthDelimited body.length = true
  bytes : DecoderLimits.within limits.maxBytes
    ((encodeVarint (Tag.raw number .lengthDelimited)).length +
      (writeLengthDelimited body).length) = true
  fields : DecoderLimits.within limits.maxFields 1 = true
  depth : 1 ≤ limits.maxDepth

/-- A struct whose only field is a repeated one. -/
def holding (number : UInt32) (values : List GenValue) : Struct :=
  ⟨[(number, .repeated values)], [], .empty⟩

/-- The packed code emitted for a field compiles, and its decoder gets the list back
from the bytes its encoder writes. -/
def RoundTrips (recurse : Merge) (schema : Schema) (ty : TyRef) (number : UInt32)
    (limits : DecoderLimits) (values : List GenValue) : Prop :=
  ∃ encode decode, genRepeatedEncode ty .proto3 = .packed encode ∧
    genRepeatedDecode ty .proto3 = .byWireType decode ty ∧
    encode.Compiles ty.prim ∧ decode.Compiles ty.prim ∧
    ∃ bytes r, encode.run schema ty number values = .ok bytes ∧
      (Reader.withLimits (.ofBytes bytes) limits).drain
        (mergeStep recurse schema [(number, .byWireType decode ty)]) (holding number []) =
          .ok (holding number values, r)

/-- The type's packed code compiles. -/
def TyRef.PacksCompiled (ty : TyRef) : Prop :=
  ty ≠ .scalar .sint32 ∧ ty ≠ .scalar .sint64 ∧ ty ≠ .scalar .bool

instance (ty : TyRef) : Decidable ty.PacksCompiled := inferInstanceAs (Decidable (_ ∧ _))

/-- The value survives being packed: a float only as positive zero, an enum only as the
value `from_i32` builds. -/
def SurvivesPacking (schema : Schema) (ty : TyRef) (value : GenValue) : Prop :=
  match ty, value with
  | .enum fqn, .enum v => v.Canonical (schema.enumOf fqn)
  | .scalar .float, .prim v => v = .f32 0
  | .scalar .double, .prim v => v = .f64 0
  | _, _ => True

theorem PackedForm.word_wireType (form : PackedForm) (v : Val) :
    (form.word v).wireType = form.wireType := by
  cases form <;> rfl

theorem PackedForm.word_sized (form : PackedForm) (v : Val) : (form.word v).Sized := by
  cases form <;> trivial

/-- A nonempty list is written as one length-delimited field. -/
theorem PackedEncode.run_eq {code : PackedEncode} {schema : Schema} {ty : TyRef} {number : UInt32}
    (nonzero : number ≠ 0) {values : List GenValue} (nonempty : values ≠ []) :
    code.run schema ty number values =
      .ok (Item.written ⟨⟨number, .lengthDelimited, nonzero⟩,
        .lengthDelimited (code.body schema ty values)⟩) := by
  have isEmpty : values.isEmpty = false := by simpa using nonempty
  simp only [PackedEncode.run, isEmpty, PackedEncode.body, PackedEncode.words, Item.written,
    UnknownValue.bytes]
  cases code.form <;>
    simp [encodePackedVarint, encodePackedFixed32, encodePackedFixed64, encodePacked,
      writeTag_eq nonzero, PackedForm.word, UnknownValue.bytes, List.flatMap_map]

/-- The `raw` read back for an item. -/
def PackedDecode.rawVal (code : PackedDecode) (item : Val) : Val :=
  match code.form with
  | .varint =>
    match interpretPrim code.readOne (.varint item.asU64) with
    | .ok raw => raw
    | _ => item
  | .fixed32 => .u32 item.asU32
  | .fixed64 => .u64 item.asU64

private theorem rawWord_word {code : PackedDecode} (readable : code.Readable) (item : Val) :
    code.rawWord (code.form.word item) = code.rawVal item := by
  unfold PackedDecode.rawWord PackedDecode.rawVal
  cases form : code.form with
  | varint =>
    obtain ⟨known, notEnum, wire⟩ := readable form
    obtain ⟨raw, decoded⟩ := interpretPrim_varint known notEnum wire item.asU64
    simp only [PackedForm.word, decoded]
  | fixed32 | fixed64 => rfl

/-- The `raw`s of the packed body of a list of items. -/
theorem PackedDecode.raws_written {code : PackedDecode} (readable : code.Readable)
    {limits : DecoderLimits} {depth : UInt32} {items : List Val}
    (short : ((items.map code.form.word).flatMap UnknownValue.bytes).length < 2 ^ 63)
    (budget : DecoderLimits.within limits.maxBytes
      ((items.map code.form.word).flatMap UnknownValue.bytes).length = true)
    (shallow : depth + 1 ≤ limits.maxDepth) :
    code.raws limits depth ((items.map code.form.word).flatMap UnknownValue.bytes) =
      .ok (items.map code.rawVal) := by
  have kind : ∀ word ∈ items.map code.form.word, word.wireType = code.form.wireType := by
    intro word member
    obtain ⟨v, _, rfl⟩ := List.mem_map.mp member
    exact code.form.word_wireType v
  have sized : ∀ word ∈ items.map code.form.word, word.Sized := by
    intro word member
    obtain ⟨v, _, rfl⟩ := List.mem_map.mp member
    exact code.form.word_sized v
  rw [PackedDecode.raws_elements readable (elements_bytes kind sized) short budget shallow, List.map_map]
  exact congrArg Outcome.ok (List.map_congr_left fun item _ => rawWord_word readable item)

/-- What an element becomes on the way through the packed code. -/
def trip (encode : PackedEncode) (decode : PackedDecode) (schema : Schema) (ty : TyRef)
    (value : GenValue) : GenValue :=
  element schema ty (Codegen.run decode.pushed
    (decode.rawVal (Codegen.run encode.closure (operand schema ty value))))

/-- The two sides of a packable type use the same packed form, read by a closure that
reads a varint. -/
theorem packed_forms {ty : TyRef} {encode : PackedEncode} {decode : PackedDecode}
    (packable : ty.Packable) (encodes : genPackedEncode ty = some encode) (decodes : genPackedDecode ty = some decode) :
    encode.form = decode.form ∧ decode.Readable := by
  cases ty with
  | message fqn => cases encodes
  | enum fqn =>
    cases encodes
    cases decodes
    exact ⟨rfl, fun _ => by decide⟩
  | scalar t =>
    cases t with
    | string | bytes | message | group => cases encodes
    | enum => exact absurd rfl packable.2.2.2.2
    | int32 | int64 | uint32 | uint64 | bool | sint32 | sint64 =>
      cases encodes
      cases decodes
      exact ⟨rfl, fun _ => by decide⟩
    | fixed32 | sfixed32 | float | fixed64 | sfixed64 | double =>
      cases encodes
      cases decodes
      exact ⟨rfl, fun varint => by cases varint⟩

theorem interpretPacked_written {encode : PackedEncode} {decode : PackedDecode} {ty : TyRef}
    (packable : ty.Packable) (encodes : genPackedEncode ty = some encode) (decodes : genPackedDecode ty = some decode)
    {schema : Schema} {limits : DecoderLimits} {depth : UInt32} {values : List GenValue}
    (short : (encode.body schema ty values).length < 2 ^ 63)
    (budget : DecoderLimits.within limits.maxBytes (encode.body schema ty values).length = true)
    (shallow : depth + 1 ≤ limits.maxDepth) :
    interpretPacked decode schema ty limits depth (encode.body schema ty values) =
      .ok (values.map (trip encode decode schema ty)) := by
  obtain ⟨form, readable⟩ := packed_forms packable encodes decodes
  have body : encode.body schema ty values =
      ((values.map fun v => Codegen.run encode.closure (operand schema ty v)).map
        decode.form.word).flatMap UnknownValue.bytes := by
    simp [PackedEncode.body, PackedEncode.words, form, Function.comp_def]
  rw [body] at short budget ⊢
  rw [interpretPacked, PackedDecode.raws_written readable short budget shallow]
  simp [trip]

/-- The one packed field a nonempty list is written as is read as one item. -/
theorem drain_written {recurse : Merge} {schema : Schema} {ty : TyRef} {number : UInt32}
    {limits : DecoderLimits} {body : List UInt8} {decode : PackedDecode} (plain : ty.Plain)
    (nonzero : number ≠ 0) (small : number.toNat < 2 ^ 29) (admits : Admits limits number body)
    {start final : Struct} :
    (∃ r, (Reader.withLimits (.ofBytes (Item.written
        ⟨⟨number, .lengthDelimited, nonzero⟩, .lengthDelimited body⟩)) limits).drain
          (mergeStep recurse schema [(number, .byWireType decode ty)]) start = .ok (final, r)) ↔
      interpretPacked decode schema ty limits 0 body >>=
        (fun values => .ok (start.pushAll number values)) = .ok final := by
  let item : Item := ⟨⟨number, .lengthDelimited, nonzero⟩, .lengthDelimited body⟩
  let arms : List (UInt32 × Arm) := [(number, .byWireType decode ty)]
  have regular : ∀ entry ∈ arms, entry.2.Regular := by simpa [arms, Arm.Regular] using plain
  have found : SortedMap.get? arms number = some (.byWireType decode ty) := by
    simp [arms, SortedMap.get?]
  have size : item.written.length = (encodeVarint (Tag.raw number .lengthDelimited)).length +
      (writeLengthDelimited body).length := by
    simp [item, Item.written, UnknownValue.bytes, Tag.encode]
  have memory := admits.memory
  have sized : body.length < 2 ^ 64 := by
    have : body.length ≤ (writeLengthDelimited body).length := by simp [writeLengthDelimited]
    omega
  have writable : item.Writable (mergeWire arms) :=
    ⟨small, by simp [item, mergeWire, found, Arm.wire, UnknownValue.wireType], sized⟩
  have rest : (Reader.withLimits (.ofBytes item.written) limits).rest = item.written := by
    simp only [Reader.rest, Reader.withLimits, List.drop_zero]
    exact Slice.bytes_ofBytes (by omega)
  have items : Items (mergeWire arms) [item] item.written := .single writable.bytes
  have affords : Affords (Reader.withLimits (.ofBytes item.written) limits) [item] := by
    refine ⟨by simpa [item, UnknownValue.Fits] using admits.length, ?_, ?_⟩
    · rw [rest, size]
      simpa [Reader.withLimits] using admits.bytes
    · simpa [Reader.withLimits] using admits.fields
  have applied : [item].foldlM (applyArm recurse schema arms limits 0) start =
      interpretPacked decode schema ty limits 0 body >>=
        fun values => .ok (start.pushAll number values) := by
    simp [item, applyArm, found, Arm.apply, UnknownValue.payload]
  rw [← applied, mergeStep_eq regular, drain_fieldStep_eq_ok_iff id (Reader.withLimits_solvent _ _),
    rest]
  constructor
  · rintro ⟨others, wire, _, folded⟩
    rwa [items.unique (item_delimited _) wire]
  · exact fun folded => ⟨[item], items, affords, folded⟩

/-- An element comes back from the packed code exactly when it survives packing. -/
theorem trip_eq_iff {ty : TyRef} {encode : PackedEncode} {decode : PackedDecode}
    (packable : ty.Packable) (encodes : genPackedEncode ty = some encode) (decodes : genPackedDecode ty = some decode)
    (compiled : ty.PacksCompiled) {schema : Schema} {value : GenValue} (shapes : ty.Shapes value) :
    trip encode decode schema ty value = value ↔ SurvivesPacking schema ty value := by
  cases ty with
  | message fqn => cases encodes
  | enum fqn =>
    cases encodes
    cases decodes
    cases value with
    | enum v =>
      have back := wordInt32_int32Word (v.asI32 (schema.enumOf fqn))
      simp only [int32Word] at back
      simp [trip, operand, packTo, run, Expr.eval, Val.cast?, Val.asU64, PackedDecode.rawVal,
        interpretPrim, back, element, SurvivesPacking, EnumVal.Canonical]
    | prim | string | bytes | message => exact shapes.elim
  | scalar t =>
    cases value with
    | string | bytes | enum | message => cases t <;> exact shapes.elim
    | prim v =>
      cases t with
      | double =>
        cases v <;> cases shapes
        cases encodes
        cases decodes
        have same (bits : UInt64) := Ieee.truncate64_eq_bits_iff bits
        simpa [trip, operand, packFrom, run, Expr.eval, Val.cast?, Val.asU64, PackedDecode.rawVal,
          element, SurvivesPacking, names, Path.visible, Path.fn, Val.prim] using same _
      | float =>
        cases v <;> cases shapes
        cases encodes
        cases decodes
        have same (bits : UInt32) := Ieee.truncate32_eq_bits_iff bits
        simpa [trip, operand, packFrom, run, Expr.eval, Val.cast?, Val.asU32, PackedDecode.rawVal,
          element, SurvivesPacking, names, Path.visible, Path.fn, Val.prim] using same _
      | sint32 => exact absurd rfl compiled.1
      | sint64 => exact absurd rfl compiled.2.1
      | bool => exact absurd rfl compiled.2.2
      | string | bytes | message | group => cases encodes
      | enum => exact absurd rfl packable.2.2.2.2
      | int32 =>
        cases v <;> cases shapes
        cases encodes
        cases decodes
        have back (v : Int32) : wordInt32 v.toInt64.toUInt64 = v := wordInt32_int32Word v
        simp [trip, operand, packTo, packFrom, run, Expr.eval, Val.cast?, Val.asU64, Val.asI32,
          PackedDecode.rawVal, interpretPrim, element, SurvivesPacking, back]
      | int64 | uint32 | uint64 | fixed32 | sfixed32 | fixed64 | sfixed64 =>
        cases v <;> cases shapes
        cases encodes
        cases decodes
        simp [trip, operand, packTo, packFrom, run, Expr.eval, Val.cast?, Val.asU64, Val.asU32,
          Val.asI32, Val.asI64, PackedDecode.rawVal, interpretPrim, element, SurvivesPacking]

/-- Which packed code compiles. -/
theorem packsCompiled_iff {ty : TyRef} (packable : ty.Packable) :
    ty.PacksCompiled ↔ ∃ encode decode, genRepeatedEncode ty .proto3 = .packed encode ∧
      genRepeatedDecode ty .proto3 = .byWireType decode ty ∧
      encode.Compiles ty.prim ∧ decode.Compiles ty.prim := by
  cases ty with
  | message fqn => exact packable.elim
  | enum fqn => exact ⟨fun _ => ⟨_, _, rfl, rfl, rfl, rfl, rfl⟩, fun _ => ⟨by simp, by simp, by simp⟩⟩
  | scalar t =>
    cases t with
    | string => exact absurd rfl packable.1
    | bytes => exact absurd rfl packable.2.1
    | message => exact absurd rfl packable.2.2.1
    | group => exact absurd rfl packable.2.2.2.1
    | enum => exact absurd rfl packable.2.2.2.2
    | sint32 | sint64 | bool =>
      refine ⟨fun compiled => absurd compiled (by decide), ?_⟩
      rintro ⟨encode, decode, _, decodes, _, compiles⟩
      cases decodes
      exact absurd compiles (by decide)
    | _ => exact ⟨fun _ => ⟨_, _, rfl, rfl, by decide, by decide⟩, fun _ => by decide⟩

private theorem map_eq_self_iff {α : Type} {f : α → α} {values : List α} :
    values.map f = values ↔ ∀ v ∈ values, f v = v := by
  induction values with
  | nil => simp
  | cons value rest ih => simp [ih]

theorem genRepeatedEncode_packed {ty : TyRef} (packable : ty.Packable) {encode : PackedEncode} :
    genRepeatedEncode ty .proto3 = .packed encode ↔ genPackedEncode ty = some encode := by
  cases ty with
  | message fqn => exact packable.elim
  | enum fqn => simp [genRepeatedEncode, genPackedEncode]
  | scalar t => cases t <;> simp [genRepeatedEncode, genPackedEncode, isFixed32, isFixed64, isVarint]

theorem genRepeatedDecode_packed {ty : TyRef} (packable : ty.Packable) {decode : PackedDecode} :
    genRepeatedDecode ty .proto3 = .byWireType decode ty ↔ genPackedDecode ty = some decode := by
  cases ty with
  | message fqn => exact packable.elim
  | enum fqn => simp [genRepeatedDecode, genPackedDecode]
  | scalar t => cases t <;> simp [genRepeatedDecode, genPackedDecode, isFixed32, isFixed64, isVarint]

/-- Running compiled packed code on a nonempty list gives the elements' trips. -/
theorem packed_run {recurse : Merge} {schema : Schema} {ty : TyRef} {number : UInt32}
    {limits : DecoderLimits} {values out : List GenValue} {encode : PackedEncode}
    {decode : PackedDecode} (packable : ty.Packable) (nonzero : number ≠ 0)
    (small : number.toNat < 2 ^ 29) (encodes : genPackedEncode ty = some encode)
    (decodes : genPackedDecode ty = some decode) (nonempty : values ≠ [])
    (admits : Admits limits number (encode.body schema ty values)) :
    (∃ bytes r, encode.run schema ty number values = .ok bytes ∧
      (Reader.withLimits (.ofBytes bytes) limits).drain
        (mergeStep recurse schema [(number, .byWireType decode ty)]) (holding number []) =
          .ok (holding number out, r)) ↔
      values.map (trip encode decode schema ty) = out := by
  have memory := admits.memory
  have budget := admits.bytes
  simp only [writeLengthDelimited, List.length_append] at memory budget
  have short : (encode.body schema ty values).length < 2 ^ 63 := by omega
  have within := DecoderLimits.within_mono (show (encode.body schema ty values).length ≤ _ by omega)
    budget
  have decoded : interpretPacked decode schema ty limits 0 (encode.body schema ty values) =
      .ok (values.map (trip encode decode schema ty)) :=
    interpretPacked_written packable encodes decodes short within (by simpa using admits.depth)
  simp only [PackedEncode.run_eq nonzero nonempty, Outcome.ok.injEq, exists_and_left, exists_eq_left']
  refine (drain_written packable.plain nonzero small admits).trans ?_
  rw [decoded]
  simp [holding, GenMsg.pushAll, SortedMap.upsert, UInt32.lt_irrefl]

/-- Packed code gets a list back exactly when it compiles and each element survives. -/
theorem packed_round_trips_iff {recurse : Merge} {schema : Schema} {ty : TyRef} {number : UInt32}
    {limits : DecoderLimits} {values : List GenValue} (packable : ty.Packable)
    (nonzero : number ≠ 0) (small : number.toNat < 2 ^ 29)
    (shapes : ∀ v ∈ values, ty.Shapes v)
    (admits : ∀ encode, genPackedEncode ty = some encode → values ≠ [] →
      Admits limits number (encode.body schema ty values)) :
    RoundTrips recurse schema ty number limits values ↔
      ty.PacksCompiled ∧ ∀ v ∈ values, SurvivesPacking schema ty v := by
  have survive {encode : PackedEncode} {decode : PackedDecode}
      (encodes : genPackedEncode ty = some encode) (decodes : genPackedDecode ty = some decode)
      (compiled : ty.PacksCompiled) :
      values.map (trip encode decode schema ty) = values ↔
        ∀ v ∈ values, SurvivesPacking schema ty v := by
    rw [map_eq_self_iff]
    exact forall₂_congr fun v member =>
      trip_eq_iff packable encodes decodes compiled (shapes v member)
  constructor
  · rintro ⟨encode, decode, encodes, decodes, encodeOk, decodeOk, run⟩
    have compiled := (packsCompiled_iff packable).mpr
      ⟨encode, decode, encodes, decodes, encodeOk, decodeOk⟩
    rw [genRepeatedEncode_packed packable] at encodes
    rw [genRepeatedDecode_packed packable] at decodes
    refine ⟨compiled, ?_⟩
    by_cases nonempty : values = []
    · simp [nonempty]
    · exact (survive encodes decodes compiled).mp ((packed_run packable nonzero small encodes decodes
        nonempty (admits encode encodes nonempty)).mp run)
  · rintro ⟨compiled, survives⟩
    obtain ⟨encode, decode, encodes, decodes, encodeOk, decodeOk⟩ :=
      (packsCompiled_iff packable).mp compiled
    refine ⟨encode, decode, encodes, decodes, encodeOk, decodeOk, ?_⟩
    rw [genRepeatedEncode_packed packable] at encodes
    rw [genRepeatedDecode_packed packable] at decodes
    by_cases nonempty : values = []
    · subst nonempty
      exact ⟨[], _, rfl, rfl⟩
    · exact (packed_run packable nonzero small encodes decodes nonempty
        (admits encode encodes nonempty)).mpr ((survive encodes decodes compiled).mpr survives)

def noTypes : Schema := ⟨[], [], []⟩

def noMerge : Merge := fun _ _ _ => .panic

theorem packed_round_trips_int32 :
    RoundTrips noMerge noTypes (.scalar .int32) 1 .default [.prim (.i32 7), .prim (.i32 (-1))] ↔
      TyRef.PacksCompiled (.scalar .int32) ∧ ∀ v ∈ [GenValue.prim (.i32 7), .prim (.i32 (-1))],
        SurvivesPacking noTypes (.scalar .int32) v :=
  packed_round_trips_iff (by decide) (by decide) (by decide) (by decide) fun encode encodes _ => by
    cases encodes
    exact ⟨by decide, by decide, by decide, by decide, by decide⟩

/-- A packed `float` field holding `1.0` is written as the integer one and read back as
the float with that bit pattern. -/
theorem not_packed_round_trips_float :
    (∃ bytes r, PackedEncode.run ⟨.fixed32, .cast .var .u32⟩ noTypes (.scalar .float) 1
        [.prim (.f32 0x3F800000)] = .ok bytes ∧
      (Reader.withLimits (.ofBytes bytes) .default).drain (mergeStep noMerge noTypes
        [(1, .byWireType ⟨.fixed32, .float, .call .f32FromBits .var⟩ (.scalar .float))])
          (holding 1 []) = .ok (holding 1 [.prim (.f32 1)], r)) ∧
      ¬ RoundTrips noMerge noTypes (.scalar .float) 1 .default [.prim (.f32 0x3F800000)] := by
  have admits : Admits .default 1 (PackedEncode.body ⟨.fixed32, .cast .var .u32⟩ noTypes
      (.scalar .float) [.prim (.f32 0x3F800000)]) :=
    ⟨by decide, by decide, by decide, by decide, by decide⟩
  have trips : [GenValue.prim (.f32 0x3F800000)].map (trip ⟨.fixed32, .cast .var .u32⟩
      ⟨.fixed32, .float, .call .f32FromBits .var⟩ noTypes (.scalar .float)) = [.prim (.f32 1)] := by
    rfl
  refine ⟨(packed_run (by decide) (by decide) (by decide) rfl rfl (by simp) admits).mpr trips, ?_⟩
  rintro ⟨encode, decode, encodes, decodes, _, _, run⟩
  cases encodes
  cases decodes
  have same := (packed_run (by decide) (by decide) (by decide) rfl rfl (by simp) admits).mp run
  cases trips.symm.trans same

end TptProto.Codegen
