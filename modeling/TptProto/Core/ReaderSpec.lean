import TptProto.Core.Reader

/-! What each read of the cursor does when it succeeds: how far it moves, which
budgets it met, and which bytes it returned. -/

namespace TptProto.Core.Reader

open TptProto.Foundation

/-- The bytes not read yet. -/
def rest (r : Reader) : List UInt8 := r.buf.bytes.drop r.pos

@[ext] theorem ext {r r' : Reader} (buf : r.buf = r'.buf) (pos : r.pos = r'.pos)
    (depth : r.depth = r'.depth) (fieldCount : r.fieldCount = r'.fieldCount)
    (limits : r.limits = r'.limits) (bytesRead : r.bytesRead = r'.bytesRead) : r = r' := by
  cases r
  cases r'
  simp_all

@[simp] theorem withLimits_rest (buf : Slice) (limits : DecoderLimits) :
    (withLimits buf limits).rest = buf.bytes := rfl

@[simp] theorem withLimits_limits (buf : Slice) (limits : DecoderLimits) :
    (withLimits buf limits).limits = limits := rfl

@[simp] theorem withLimits_bytesRead (buf : Slice) (limits : DecoderLimits) :
    (withLimits buf limits).bytesRead = 0 := rfl

@[simp] theorem withLimits_fieldCount (buf : Slice) (limits : DecoderLimits) :
    (withLimits buf limits).fieldCount = 0 := rfl

theorem rest_length (r : Reader) : r.rest.length = r.remaining := by
  simp [rest, remaining, Slice.length]

theorem isEmpty_iff (r : Reader) : r.isEmpty = true ↔ r.rest = [] := by
  rw [← List.length_eq_zero_iff, rest_length, remaining, isEmpty, decide_eq_true_eq]
  omega

theorem isEmpty_eq_false_iff (r : Reader) : r.isEmpty = false ↔ r.pos < r.buf.length := by
  simp [isEmpty]

/-- A read of `n` bytes and `tags` tags that changed nothing else. -/
structure Advanced (r : Reader) (n tags : Nat) (r' : Reader) : Prop where
  buf : r'.buf = r.buf
  pos : r'.pos = r.pos + n
  depth : r'.depth = r.depth
  fieldCount : r'.fieldCount = if tags = 0 then r.fieldCount else usizeAdd r.fieldCount tags
  limits : r'.limits = r.limits
  bytesRead : r'.bytesRead = usizeAdd r.bytesRead n

theorem Advanced.unique {r r₁ r₂ : Reader} {n tags : Nat} (first : Advanced r n tags r₁)
    (second : Advanced r n tags r₂) : r₁ = r₂ :=
  Reader.ext (first.buf.trans second.buf.symm) (first.pos.trans second.pos.symm)
    (first.depth.trans second.depth.symm) (first.fieldCount.trans second.fieldCount.symm)
    (first.limits.trans second.limits.symm) (first.bytesRead.trans second.bytesRead.symm)

theorem Advanced.rest_eq {r r' : Reader} {n tags : Nat} (moved : Advanced r n tags r') :
    r'.rest = r.rest.drop n := by
  rw [rest, rest, moved.buf, moved.pos, List.drop_drop]

theorem Advanced.inside {r r' : Reader} {n tags : Nat} (moved : Advanced r n tags r') :
    r.pos + n ≤ r.buf.length := by
  have bound := r'.pos_le
  rw [moved.pos, moved.buf] at bound
  exact bound

theorem pos_lt (r : Reader) : r.pos < 2 ^ 63 :=
  Nat.lt_of_le_of_lt r.pos_le r.buf.length_lt

/-- Where the sum does not wrap, `advance` moves by exactly its argument. -/
theorem advance_eq_ok_iff {r r' : Reader} {n : Nat} (small : r.pos + n < 2 ^ 64) :
    r.advance n = .ok r' ↔
      r.pos + n ≤ r.buf.length ∧
        DecoderLimits.within r.limits.maxBytes (usizeAdd r.bytesRead n) = true ∧
        Advanced r n 0 r' := by
  have sum := usizeAdd_of_lt small
  unfold advance
  rw [sum]
  split
  · rename_i inside
    simp only [DecoderLimits.checkBytes, Outcome.bind_eq_ok, DecoderLimits.check_eq_ok,
      Outcome.ok.injEq, exists_const]
    constructor
    · rintro ⟨fits, rfl⟩
      exact ⟨inside, fits, rfl, rfl, rfl, rfl, rfl, rfl⟩
    · rintro ⟨_, fits, moved⟩
      refine ⟨fits, Advanced.unique ?_ moved⟩
      exact ⟨rfl, rfl, rfl, rfl, rfl, rfl⟩
  · rename_i outside
    simp [outside]

theorem advance_returns {r : Reader} {n : Nat} : (r.advance n).Returns := by
  unfold advance
  split
  · exact DecoderLimits.check_returns.bind fun _ _ => .ok _
  · trivial

theorem readVarint_eq_ok_iff {r r' : Reader} {value : UInt64} :
    r.readVarint = .ok (value, r') ↔
      ∃ n, decodeVarint r.buf.bytes r.pos = .ok (value, n) ∧
        DecoderLimits.within r.limits.maxBytes (usizeAdd r.bytesRead n) = true ∧
        Advanced r n 0 r' := by
  simp only [readVarint, Outcome.bind_eq_ok, Prod.exists, Outcome.ok.injEq, Prod.mk.injEq]
  constructor
  · rintro ⟨value', n, decoded, r₁, moved, rfl, rfl⟩
    have bounds := decodeVarint_bounds decoded
    have small := r.pos_lt
    obtain ⟨_, fits, advanced⟩ := (advance_eq_ok_iff (by omega)).mp moved
    exact ⟨n, decoded, fits, advanced⟩
  · rintro ⟨n, decoded, fits, advanced⟩
    have bounds := decodeVarint_bounds decoded
    have small := r.pos_lt
    exact ⟨value, n, decoded, r', (advance_eq_ok_iff (by omega)).mpr ⟨bounds.2.2, fits, advanced⟩,
      rfl, rfl⟩

theorem readVarint_returns {r : Reader} : r.readVarint.Returns :=
  decodeVarint_returns.bind fun _ _ => advance_returns.bind fun _ _ => .ok _

theorem readTag_eq_ok_iff {r r' : Reader} {tag : Tag} :
    r.readTag = .ok (tag, r') ↔
      ∃ n, Tag.decode r.buf.bytes r.pos = .ok (tag, n) ∧
        DecoderLimits.within r.limits.maxBytes (usizeAdd r.bytesRead n) = true ∧
        DecoderLimits.within r.limits.maxFields (usizeAdd r.fieldCount 1) = true ∧
        Advanced r n 1 r' := by
  simp only [readTag, Outcome.bind_eq_ok, Prod.exists, DecoderLimits.checkField,
    DecoderLimits.check_eq_ok, exists_const, Outcome.ok.injEq, Prod.mk.injEq]
  constructor
  · rintro ⟨tag', n, decoded, r₁, moved, counted, rfl, rfl⟩
    have bounds := Tag.decode_bounds decoded
    have small := r.pos_lt
    obtain ⟨_, fits, advanced⟩ := (advance_eq_ok_iff (by omega)).mp moved
    have sameCount := advanced.fieldCount
    simp only [if_true] at sameCount
    rw [advanced.limits, sameCount] at counted
    refine ⟨n, decoded, fits, counted, advanced.buf, advanced.pos, advanced.depth, ?_,
      advanced.limits, advanced.bytesRead⟩
    simp [sameCount]
  · rintro ⟨n, decoded, fits, counted, advanced⟩
    have bounds := Tag.decode_bounds decoded
    have small := r.pos_lt
    have before : Advanced r n 0 { r' with fieldCount := r.fieldCount } :=
      ⟨advanced.buf, advanced.pos, advanced.depth, rfl, advanced.limits, advanced.bytesRead⟩
    refine ⟨tag, n, decoded, _, (advance_eq_ok_iff (by omega)).mpr ⟨bounds.2.2, fits, before⟩,
      ?_, rfl, ?_⟩
    · simpa [advanced.limits] using counted
    · have sameCount := advanced.fieldCount
      simp only [Nat.one_ne_zero, if_false] at sameCount
      cases r'
      simp_all

theorem readTag_returns {r : Reader} : r.readTag.Returns :=
  Tag.decode_returns.bind fun _ _ => advance_returns.bind fun _ _ =>
    DecoderLimits.check_returns.bind fun _ _ => .ok _

theorem usizeAdd_assoc (a b c : Nat) : usizeAdd (usizeAdd a b) c = usizeAdd a (b + c) := by
  simp only [usizeAdd]
  omega

theorem Advanced.trans {r r₁ r₂ : Reader} {n m tags : Nat} (first : Advanced r n tags r₁)
    (second : Advanced r₁ m 0 r₂) : Advanced r (n + m) tags r₂ where
  buf := second.buf.trans first.buf
  pos := by rw [second.pos, first.pos, Nat.add_assoc]
  depth := second.depth.trans first.depth
  fieldCount := by rw [second.fieldCount, if_pos rfl, first.fieldCount]
  limits := second.limits.trans first.limits
  bytesRead := by rw [second.bytesRead, first.bytesRead, usizeAdd_assoc]

theorem index_eq_ok_iff {r : Reader} {start stop : Nat} {part : Slice} :
    r.index start stop = .ok part ↔
      start ≤ stop ∧ stop ≤ r.buf.length ∧
        part.bytes = (r.buf.bytes.drop start).take (stop - start) := by
  rw [← Slice.range?_eq_some]
  unfold index
  cases r.buf.range? start stop <;> simp

theorem index_returns {r : Reader} {start stop : Nat} (ordered : start ≤ stop)
    (inside : stop ≤ r.buf.length) : (r.index start stop).Returns := by
  obtain ⟨part, found⟩ := Slice.range?_isSome ordered inside
  rw [index, found]
  trivial

/-- The bytes between the position and a point `n` further on. -/
theorem rest_take (r : Reader) (n : Nat) :
    (r.buf.bytes.drop r.pos).take (r.pos + n - r.pos) = r.rest.take n := by
  rw [rest, Nat.add_sub_cancel_left]

theorem readFixed_eq_ok_iff {r r' : Reader} {width : Nat} {bytes : Slice}
    (narrow : width ≤ 8) :
    r.readFixed width = .ok (bytes, r') ↔
      r.pos + width ≤ r.buf.length ∧ bytes.bytes = r.rest.take width ∧
        DecoderLimits.within r.limits.maxBytes (usizeAdd r.bytesRead width) = true ∧
        Advanced r width 0 r' := by
  have small := r.pos_lt
  have sum : usizeAdd r.pos width = r.pos + width := usizeAdd_of_lt (by omega)
  unfold readFixed
  rw [sum]
  split
  · rename_i outside
    simp [show ¬ r.pos + width ≤ r.buf.length by omega]
  · rename_i inside
    simp only [Outcome.bind_eq_ok, index_eq_ok_iff, rest_take, Outcome.ok.injEq, Prod.mk.injEq,
      advance_eq_ok_iff (show r.pos + width < 2 ^ 64 by omega)]
    constructor
    · rintro ⟨_, ⟨_, fit, same⟩, _, ⟨_, budget, moved⟩, rfl, rfl⟩
      exact ⟨fit, same, budget, moved⟩
    · rintro ⟨fit, same, budget, moved⟩
      exact ⟨bytes, ⟨by omega, fit, same⟩, r', ⟨fit, budget, moved⟩, rfl, rfl⟩

theorem readFixed_returns {r : Reader} {width : Nat} (narrow : width ≤ 8) :
    (r.readFixed width).Returns := by
  have small := r.pos_lt
  have sum : usizeAdd r.pos width = r.pos + width := usizeAdd_of_lt (by omega)
  unfold readFixed
  rw [sum]
  split
  · trivial
  · exact (index_returns (by omega) (by omega)).bind fun _ _ =>
      advance_returns.bind fun _ _ => .ok _

theorem readFixed32_eq_ok_iff {r r' : Reader} {value : UInt32} :
    r.readFixed32 = .ok (value, r') ↔
      r.pos + 4 ≤ r.buf.length ∧ value = fromLeBytes32 (r.rest.take 4) ∧
        DecoderLimits.within r.limits.maxBytes (usizeAdd r.bytesRead 4) = true ∧
        Advanced r 4 0 r' := by
  simp only [readFixed32, Outcome.bind_eq_ok, Prod.exists, Outcome.ok.injEq, Prod.mk.injEq,
    readFixed_eq_ok_iff (show 4 ≤ 8 by omega)]
  constructor
  · rintro ⟨bytes, _, ⟨fit, same, budget, moved⟩, rfl, rfl⟩
    exact ⟨fit, by rw [same], budget, moved⟩
  · rintro ⟨fit, rfl, budget, moved⟩
    obtain ⟨part, found⟩ := Slice.range?_isSome (Nat.le_add_right r.pos 4) fit
    have same := (Slice.range?_eq_some.mp found).2.2
    rw [rest_take] at same
    exact ⟨part, r', ⟨fit, same, budget, moved⟩, by rw [same], rfl⟩

theorem readFixed64_eq_ok_iff {r r' : Reader} {value : UInt64} :
    r.readFixed64 = .ok (value, r') ↔
      r.pos + 8 ≤ r.buf.length ∧ value = fromLeBytes64 (r.rest.take 8) ∧
        DecoderLimits.within r.limits.maxBytes (usizeAdd r.bytesRead 8) = true ∧
        Advanced r 8 0 r' := by
  simp only [readFixed64, Outcome.bind_eq_ok, Prod.exists, Outcome.ok.injEq, Prod.mk.injEq,
    readFixed_eq_ok_iff (show 8 ≤ 8 by omega)]
  constructor
  · rintro ⟨bytes, _, ⟨fit, same, budget, moved⟩, rfl, rfl⟩
    exact ⟨fit, by rw [same], budget, moved⟩
  · rintro ⟨fit, rfl, budget, moved⟩
    obtain ⟨part, found⟩ := Slice.range?_isSome (Nat.le_add_right r.pos 8) fit
    have same := (Slice.range?_eq_some.mp found).2.2
    rw [rest_take] at same
    exact ⟨part, r', ⟨fit, same, budget, moved⟩, by rw [same], rfl⟩

theorem readFixed32_returns {r : Reader} : r.readFixed32.Returns :=
  (readFixed_returns (by omega)).bind fun _ _ => .ok _

theorem readFixed64_returns {r : Reader} : r.readFixed64.Returns :=
  (readFixed_returns (by omega)).bind fun _ _ => .ok _

/-- A successful length-delimited read never wrapped: its slice would have panicked. -/
theorem readLengthDelimited_eq_ok_iff {r r' : Reader} {body : Slice} :
    r.readLengthDelimited = .ok (body, r') ↔
      ∃ len n, decodeVarint r.buf.bytes r.pos = .ok (len, n) ∧
        DecoderLimits.within r.limits.maxBytes (usizeAdd r.bytesRead n) = true ∧
        DecoderLimits.within r.limits.maxLengthDelimited len.toNat = true ∧
        r.pos + (n + len.toNat) ≤ r.buf.length ∧
        body.bytes = (r.rest.drop n).take len.toNat ∧
        DecoderLimits.within r.limits.maxBytes (usizeAdd r.bytesRead (n + len.toNat)) = true ∧
        Advanced r (n + len.toNat) 0 r' := by
  simp only [readLengthDelimited, Outcome.bind_eq_ok, Prod.exists, readVarint_eq_ok_iff,
    DecoderLimits.checkLength, DecoderLimits.check_eq_ok, exists_const]
  constructor
  · rintro ⟨len, r₁, ⟨n, decoded, budget, moved⟩, short, read⟩
    have small := r₁.pos_lt
    have wide := len.toNat_lt
    split at read
    · cases read
    · rename_i fits
      simp only [Outcome.bind_eq_ok, index_eq_ok_iff, Outcome.ok.injEq, Prod.mk.injEq] at read
      obtain ⟨slice, ⟨ordered, inside, same⟩, r₂, moved₂, rfl, rfl⟩ := read
      have sum : usizeAdd r₁.pos len.toNat = r₁.pos + len.toNat := by
        simp only [usizeAdd] at ordered ⊢
        omega
      rw [sum] at inside same
      have bound := r₁.buf.length_lt_usize
      obtain ⟨_, budget₂, moved₂⟩ := (advance_eq_ok_iff (by omega)).mp moved₂
      rw [moved.limits, moved.bytesRead, usizeAdd_assoc] at budget₂
      rw [rest_take, moved.rest_eq] at same
      rw [moved.pos, moved.buf] at inside
      rw [moved.limits] at short
      exact ⟨len, n, decoded, budget, short, by omega, same, budget₂, moved.trans moved₂⟩
  · rintro ⟨len, n, decoded, budget, short, inside, same, budget₂, moved⟩
    have bounds := decodeVarint_bounds decoded
    have bound := r.buf.length_lt_usize
    let r₁ : Reader := { r with
      pos := r.pos + n, bytesRead := usizeAdd r.bytesRead n, pos_le := by omega }
    have moved₁ : Advanced r n 0 r₁ := ⟨rfl, rfl, rfl, rfl, rfl, rfl⟩
    have moved₂ : Advanced r₁ len.toNat 0 r' :=
      ⟨moved.buf, by rw [moved.pos, moved₁.pos, Nat.add_assoc], moved.depth, moved.fieldCount,
        moved.limits, by rw [moved.bytesRead, moved₁.bytesRead, usizeAdd_assoc]⟩
    have sum : usizeAdd r₁.pos len.toNat = r₁.pos + len.toNat :=
      usizeAdd_of_lt (by simp only [r₁]; omega)
    refine ⟨len, r₁, ⟨n, decoded, budget, moved₁⟩, short, ?_⟩
    rw [sum, if_neg (by simp only [r₁]; omega)]
    simp only [Outcome.bind_eq_ok, index_eq_ok_iff, Outcome.ok.injEq, Prod.mk.injEq]
    refine ⟨body, ⟨by omega, by simp only [r₁]; omega, ?_⟩, r', ?_, rfl, rfl⟩
    · rw [rest_take, moved₁.rest_eq, same]
    · refine (advance_eq_ok_iff (by simp only [r₁]; omega)).mpr ⟨by simp only [r₁]; omega, ?_, moved₂⟩
      rw [moved₁.bytesRead, usizeAdd_assoc]
      exact budget₂

theorem nestedAt_eq_ok_iff {limits : DecoderLimits} {depth : UInt32} {buf : Slice} :
    nestedAt limits depth buf = .ok r' ↔
      depth + 1 ≤ limits.maxDepth ∧ r' = childAt limits depth buf := by
  unfold nestedAt
  split
  · rename_i deep
    simp only [reduceCtorEq, false_iff]
    rintro ⟨shallow, _⟩
    grind
  · rename_i shallow
    simp only [Outcome.ok.injEq]
    grind

theorem nested_eq_ok_iff {r r' : Reader} {buf : Slice} :
    r.nested buf = .ok r' ↔ r.depth + 1 ≤ r.limits.maxDepth ∧ r' = r.child buf :=
  nestedAt_eq_ok_iff

@[simp] theorem childAt_rest (limits : DecoderLimits) (depth : UInt32) (buf : Slice) :
    (childAt limits depth buf).rest = buf.bytes := rfl

@[simp] theorem child_rest (r : Reader) (buf : Slice) : (r.child buf).rest = buf.bytes := rfl

end TptProto.Core.Reader
