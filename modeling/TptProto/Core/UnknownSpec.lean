import TptProto.Core.Frame

/-! What an unknown-field set contains: the values of each number in arrival
order, and the byte count they encode to. -/

namespace TptProto.Core

open TptProto.Foundation

theorem varintLenLoop_eq (fuel : Nat) (value : UInt64) (fits : value.toNat < 128 ^ (fuel + 1)) :
    varintLenLoop fuel value = Base128.size value.toNat := by
  induction fuel generalizing value with
  | zero => rw [varintLenLoop, Base128.size, if_pos (by simpa using fits)]
  | succ fuel ih =>
    have compare : value ≥ 0x80 ↔ 128 ≤ value.toNat := UInt64.le_iff_toNat_le
    rw [varintLenLoop, Base128.size]
    split
    · rename_i large
      have high := compare.mp large
      have shifted : (value >>> 7).toNat = value.toNat / 128 := by
        rw [UInt64.toNat_shiftRight]
        simp [Nat.shiftRight_eq_div_pow]
      have smaller : (value >>> 7).toNat < 128 ^ (fuel + 1) := by
        rw [shifted, Nat.div_lt_iff_lt_mul (by omega)]
        rwa [Nat.pow_succ] at fits
      rw [ih _ smaller, shifted, if_neg (by omega), Nat.add_comm]
    · rename_i small
      have := mt compare.mpr small
      rw [if_pos (by omega)]

theorem varintLen_eq (value : UInt64) : varintLen value = (encodeVarint value).length := by
  rw [encodeVarint_length]
  exact varintLenLoop_eq 9 value (Nat.lt_trans value.toNat_lt (by decide))

/-- The wire type never changes the length of a tag. -/
theorem size_tag (number kind : Nat) (low : kind < 8) :
    Base128.size (8 * number + kind) = Base128.size (8 * number) := by
  rw [Base128.size, Base128.size.eq_1 (8 * number)]
  by_cases small : 8 * number < 128
  · rw [if_pos small, if_pos (by omega)]
  · rw [if_neg small, if_neg (by omega), show (8 * number + kind) / 128 = 8 * number / 128 by omega]

theorem tagLen_eq (field : UInt32) (wireType : WireType) :
    tagLen field = (encodeVarint (Tag.raw field wireType)).length := by
  rw [tagLen, varintLen_eq, encodeVarint_length, encodeVarint_length, Tag.raw_toNat, Tag.raw_toNat,
    size_tag _ _ wireType.asU8_lt, size_tag _ _ (WireType.asU8_lt _)]

/-- Payloads are held in memory, so their lengths are `usize` values. -/
def UnknownValue.Sized : UnknownValue → Prop
  | .lengthDelimited bytes => bytes.length < 2 ^ 64
  | _ => True

theorem valueLen_eq {value : UnknownValue} : valueLen value = value.bytes.length := by
  cases value with
  | varint value => exact varintLen_eq value
  | fixed32 value | fixed64 value => rfl
  | lengthDelimited bytes =>
    simp only [valueLen, UnknownValue.bytes, writeLengthDelimited, List.length_append, varintLen_eq]

theorem valueBytes_bytes {value : UnknownValue} (sized : value.Sized) :
    ValueBytes value value.bytes := by
  cases value with
  | varint value => exact .varint (wireVarint_encodeVarint value)
  | fixed32 value =>
    have wire := ValueBytes.fixed32 (writeFixed32_length value)
    rwa [fromLeBytes32_writeFixed32] at wire
  | fixed64 value =>
    have wire := ValueBytes.fixed64 (writeFixed64_length value)
    rwa [fromLeBytes64_writeFixed64] at wire
  | lengthDelimited bytes =>
    refine .lengthDelimited (wireVarint_encodeVarint _) ?_
    rw [UInt64.toNat_ofNat', Nat.mod_eq_of_lt sized]

/-- No encoding of a value is shorter than the one written back. -/
theorem ValueBytes.valueLen_le {value : UnknownValue} {bytes : List UInt8}
    (wire : ValueBytes value bytes) : valueLen value ≤ bytes.length := by
  cases wire with
  | varint wire =>
    rw [valueLen, varintLen_eq]
    exact wire.minimal
  | fixed32 width | fixed64 width => exact Nat.le_of_eq width.symm
  | lengthDelimited wire width =>
    simp only [valueLen, varintLen_eq, List.length_append]
    rw [width, UInt64.ofNat_toNat]
    have := wire.minimal
    omega

/-- A stored value is written as the frame whose number is cut to 29 bits. -/
theorem writeValue_frame {ε : Type} {field : UInt32} {value : UnknownValue} (nonzero : field ≠ 0)
    (sized : value.Sized) :
    ∃ bytes, writeValue (ε := ε) field value = .ok bytes ∧
      Frame.Bytes ⟨field.toNat % 2 ^ 29, value⟩ bytes ∧
      bytes.length = tagLen field + valueLen value := by
  have made : Tag.new field value.wireType = some ⟨field, value.wireType, nonzero⟩ :=
    Tag.new_eq_some.mpr ⟨rfl, rfl⟩
  refine ⟨encodeVarint (Tag.raw field value.wireType) ++ value.bytes, ?_, ?_, ?_⟩
  · rw [writeValue, writeTag, made]
    rfl
  · exact ⟨_, _, _, rfl, wireVarint_encodeVarint _, Tag.raw_toNat _ _, valueBytes_bytes sized⟩
  · rw [List.length_append, tagLen_eq field value.wireType, valueLen_eq]

namespace UnknownFieldSet

/-- The values stored under a number, for any number a tag can denote. -/
def valuesOf (set : UnknownFieldSet) (number : Nat) : List UnknownValue :=
  (set.entries.filter fun entry => entry.1.toNat = number).map Prod.snd

/-- Bytes the entries are written as. -/
def entriesLen (entries : List (UInt32 × UnknownValue)) : Nat :=
  (entries.map fun entry => tagLen entry.1 + valueLen entry.2).sum

/-- What every set built by the public operations satisfies. -/
structure Canonical (set : UnknownFieldSet) : Prop where
  total : set.totalLen = entriesLen set.entries
  nonempty : ∀ field ∈ set.fields, field.2 ≠ []

theorem canonical_empty : empty.Canonical := ⟨rfl, by simp [empty]⟩

/-- Flatten a keyed list of lists. -/
def flat (fields : List (UInt32 × List UnknownValue)) : List (UInt32 × UnknownValue) :=
  fields.flatMap fun field => field.2.map fun value => (field.1, value)

private theorem filter_same (key : UInt32) (values : List UnknownValue) :
    (values.map fun value => (key, value)).filter (fun entry => entry.1.toNat = key.toNat) =
      values.map fun value => (key, value) := by
  apply List.filter_eq_self.mpr
  intro entry member
  obtain ⟨value, _, rfl⟩ := List.mem_map.mp member
  simp

private theorem filter_other {key : UInt32} {number : Nat} (differs : key.toNat ≠ number)
    (values : List UnknownValue) :
    (values.map fun value => (key, value)).filter (fun entry => entry.1.toNat = number) = [] := by
  apply List.filter_eq_nil_iff.mpr
  intro entry member
  obtain ⟨value, _, rfl⟩ := List.mem_map.mp member
  simpa using differs

/-- In a sorted map the values of a number are its bucket. -/
private theorem flat_filter {fields : List (UInt32 × List UnknownValue)}
    (sorted : SortedMap.Sorted fields) (key : UInt32) :
    ((flat fields).filter fun entry => entry.1.toNat = key.toNat).map Prod.snd =
      (SortedMap.get? fields key).getD [] := by
  induction fields with
  | nil => rfl
  | cons field rest ih =>
    obtain ⟨above, tail⟩ := List.pairwise_cons.mp sorted
    have step := ih tail
    simp only [flat, List.flatMap_cons, List.filter_append, List.map_append] at step ⊢
    rw [SortedMap.get?_cons, step]
    by_cases same : field.1 = key
    · subst same
      have absent : SortedMap.get? rest field.1 = none := by
        apply SortedMap.get?_eq_none_iff.mpr
        intro entry member
        have := above entry member
        grind
      rw [filter_same, absent, if_pos rfl]
      simp [Function.comp_def]
    · rw [filter_other (fun clash => same (UInt32.toNat_inj.mp clash)), if_neg same]
      rfl

theorem valuesOf_key (set : UnknownFieldSet) (key : UInt32) :
    set.valuesOf key.toNat = (SortedMap.get? set.fields key).getD [] :=
  flat_filter set.sorted key

theorem valuesOf_large (set : UnknownFieldSet) {number : Nat} (large : 2 ^ 32 ≤ number) :
    set.valuesOf number = [] := by
  rw [valuesOf, List.map_eq_nil_iff, List.filter_eq_nil_iff]
  intro entry _
  have := entry.1.toNat_lt
  simp only [decide_eq_true_eq]
  omega

theorem valuesOf_insert (set : UnknownFieldSet) (key : UInt32) (value : UnknownValue) (number : Nat) :
    (set.insert key value).valuesOf number =
      set.valuesOf number ++ if key.toNat = number then [value] else [] := by
  by_cases small : number < 2 ^ 32
  · have known : (UInt32.ofNat number).toNat = number := by
      rw [UInt32.toNat_ofNat']
      omega
    rw [← known, valuesOf_key, valuesOf_key]
    simp only [insert, SortedMap.get?_upsert set.sorted, UInt32.toNat_inj]
    by_cases here : UInt32.ofNat number = key
    · subst here
      simp
    · rw [if_neg here, if_neg (fun same => here same.symm), List.append_nil]
  · have := key.toNat_lt
    rw [valuesOf_large _ (by omega), valuesOf_large _ (by omega), if_neg (by omega)]
    rfl

/-- Extending one bucket adds exactly its new values. -/
theorem entries_upsert_perm (fields : List (UInt32 × List UnknownValue)) (key : UInt32)
    (values : List UnknownValue) :
    (flat (SortedMap.upsert fields key fun stored => stored.getD [] ++ values)).Perm
      (flat fields ++ values.map fun value => (key, value)) := by
  induction fields with
  | nil => simp [SortedMap.upsert, flat]
  | cons field rest ih =>
    obtain ⟨other, held⟩ := field
    simp only [SortedMap.upsert]
    simp only [flat] at ih ⊢
    split
    · exact @List.perm_append_comm _ (values.map fun value => (key, value)) _
    · split
      · rename_i same
        subst same
        simp only [List.flatMap_cons, Option.getD_some, List.map_append, List.append_assoc]
        exact List.Perm.append_left _ List.perm_append_comm
      · simp only [List.flatMap_cons, List.append_assoc]
        exact List.Perm.append_left _ ih

/-- Inserting adds exactly one entry. -/
theorem entries_insert_perm (set : UnknownFieldSet) (key : UInt32) (value : UnknownValue) :
    (set.insert key value).entries.Perm (set.entries ++ [(key, value)]) :=
  entries_upsert_perm set.fields key [value]

theorem Canonical.insert {set : UnknownFieldSet} (canonical : set.Canonical) (key : UInt32)
    (value : UnknownValue) : (set.insert key value).Canonical where
  total := by
    have entries := (entries_insert_perm set key value).map fun entry =>
      tagLen entry.1 + valueLen entry.2
    rw [entriesLen, entries.sum_nat, List.map_append, List.sum_append]
    change set.totalLen + _ = _
    rw [canonical.total]
    simp [entriesLen]
  nonempty := by
    intro field member
    have found := SortedMap.get?_of_mem (set.insert key value).sorted member
    simp only [UnknownFieldSet.insert, SortedMap.get?_upsert set.sorted] at found
    split at found
    · rw [← Option.some.inj found]
      simp
    · exact canonical.nonempty _ (SortedMap.mem_of_get? found)

/-- A canonical set is determined by the values of each number. -/
theorem Canonical.ext {first second : UnknownFieldSet} (canonical₁ : first.Canonical)
    (canonical₂ : second.Canonical)
    (same : ∀ number, first.valuesOf number = second.valuesOf number) : first = second := by
  have buckets : first.fields = second.fields := by
    apply SortedMap.ext_get? first.sorted second.sorted
    intro key
    have values := same key.toNat
    rw [valuesOf_key, valuesOf_key] at values
    cases here : SortedMap.get? first.fields key with
    | none =>
      cases there : SortedMap.get? second.fields key with
      | none => rfl
      | some bucket =>
        simp only [here, there, Option.getD_none, Option.getD_some] at values
        exact absurd values.symm (canonical₂.nonempty _ (SortedMap.mem_of_get? there))
    | some bucket =>
      cases there : SortedMap.get? second.fields key with
      | none =>
        simp only [here, there, Option.getD_none, Option.getD_some] at values
        exact absurd values (canonical₁.nonempty _ (SortedMap.mem_of_get? here))
      | some bucket' => simpa [here, there] using values
  have totals : first.totalLen = second.totalLen := by
    rw [canonical₁.total, canonical₂.total]
    simp only [entries, buckets]
  cases first
  cases second
  simp_all

end UnknownFieldSet

end TptProto.Core
