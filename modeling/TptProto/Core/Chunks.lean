import TptProto.Core.FrameReader

/-! Loops over a cursor whose every pass reads one delimited chunk and folds its
value into a result. -/

namespace TptProto.Core

open TptProto.Foundation

/-- Budgets already met by what has been read. -/
structure Reader.Solvent (r : Reader) : Prop where
  tracked : r.Tracked
  bytes : DecoderLimits.within r.limits.maxBytes r.bytesRead = true
  fields : DecoderLimits.within r.limits.maxFields r.fieldCount = true

theorem DecoderLimits.within_zero (cap : Option Nat) : within cap 0 = true := by
  cases cap <;> simp [within]

theorem Reader.withLimits_solvent (buf : Slice) (limits : DecoderLimits) :
    (Reader.withLimits buf limits).Solvent :=
  ⟨withLimits_tracked _ _, DecoderLimits.within_zero _, DecoderLimits.within_zero _⟩

theorem Reader.child_solvent (r : Reader) (buf : Slice) : (r.child buf).Solvent :=
  ⟨child_tracked _ _, DecoderLimits.within_zero _, DecoderLimits.within_zero _⟩

/-- A loop body that reads one chunk with a number of tags, checks it against the
limits and applies its value under the cursor's limits and depth. -/
structure Chunked {β σ ε : Type} (Chunk : β → List UInt8 → Prop) (Fits : DecoderLimits → β → Prop)
    (tags : Nat) (apply : DecoderLimits → UInt32 → σ → β → Outcome ε σ)
    (body : σ × Reader → Outcome ε (σ × Reader)) : Prop where
  delimited : Delimited Chunk
  few : tags ≤ 1
  step_iff : ∀ {state state' : σ} {r r' : Reader}, r.Solvent →
    (body (state, r) = .ok (state', r') ↔
      ∃ (value : β) (bytes rest : List UInt8), r.rest = bytes ++ rest ∧ Chunk value bytes ∧
        Fits r.limits value ∧ apply r.limits r.depth state value = .ok state' ∧
        Reader.Advanced r bytes.length tags r' ∧ r'.Solvent)

/-- The budgets that reading a list of chunks from a cursor must meet. -/
structure Affordable {β : Type} (Fits : DecoderLimits → β → Prop) (tags : Nat) (r : Reader)
    (values : List β) : Prop where
  each : ∀ value ∈ values, Fits r.limits value
  bytes : DecoderLimits.within r.limits.maxBytes (r.bytesRead + r.rest.length) = true
  fields : DecoderLimits.within r.limits.maxFields (r.fieldCount + values.length * tags) = true

theorem Reader.Advanced.fieldCount_eq {r r' : Reader} {n tags : Nat}
    (moved : Reader.Advanced r n tags r') (tracked : r.Tracked) (few : tags ≤ 1) :
    r'.fieldCount = r.fieldCount + tags := by
  rw [moved.fieldCount]
  split
  · omega
  · rw [show tags = 1 by omega, tracked.count_field]

section Loop

variable {β σ ε : Type} {Chunk : β → List UInt8 → Prop} {Fits : DecoderLimits → β → Prop}
  {tags : Nat} {apply : DecoderLimits → UInt32 → σ → β → Outcome ε σ}
  {body : σ × Reader → Outcome ε (σ × Reader)}

theorem Chunked.run (chunked : Chunked Chunk Fits tags apply body) {state final : σ × Reader}
    {visited : List (σ × Reader)}
    (run : Run (fun state => !state.2.isEmpty) body state visited final)
    (solvent : state.2.Solvent) :
    ∃ values : List β, Sequence Chunk values state.2.rest ∧ Affordable Fits tags state.2 values ∧
      values.foldlM (apply state.2.limits state.2.depth) state.1 = .ok final.1 := by
  induction run with
  | @done state finished =>
    have empty : state.2.rest = [] := (Reader.isEmpty_iff _).mp (by simpa using finished)
    exact ⟨[], by rw [empty]; exact .nil, ⟨by simp, by simpa [empty] using solvent.bytes,
      by simpa using solvent.fields⟩, rfl⟩
  | @step state next final visited continues moved rest ih =>
    obtain ⟨s, r⟩ := state
    obtain ⟨s', r'⟩ := next
    obtain ⟨value, bytes, tail, split, wire, fits, applied, advanced, solvent'⟩ :=
      (chunked.step_iff solvent).mp moved
    obtain ⟨values, wires, affords, folded⟩ := ih solvent'
    have tailEq : r'.rest = tail := by rw [advanced.rest_eq, split, List.drop_left]
    have inside := Reader.inside_of_rest split
    have each := affords.each
    have bytesBudget := affords.bytes
    have fieldsBudget := affords.fields
    simp only [tailEq, advanced.limits, advanced.depth, advanced.bytesRead,
      advanced.fieldCount_eq solvent.tracked chunked.few,
      solvent.tracked.count_bytes inside] at wires each bytesBudget fieldsBudget folded
    refine ⟨value :: values, by simp only [split]; exact .cons wire wires, ⟨?_, ?_, ?_⟩, ?_⟩
    · simpa using ⟨fits, each⟩
    · simp only [split, List.length_append]
      rwa [← Nat.add_assoc]
    · simp only [List.length_cons, Nat.succ_mul]
      rwa [Nat.add_comm (values.length * tags), ← Nat.add_assoc]
    · rw [List.foldlM_cons, applied]
      exact folded

theorem Chunked.exists_run (chunked : Chunked Chunk Fits tags apply body) {values : List β}
    {state final : σ} {r : Reader} (wire : Sequence Chunk values r.rest) (solvent : r.Solvent)
    (affords : Affordable Fits tags r values)
    (folded : values.foldlM (apply r.limits r.depth) state = .ok final) :
    ∃ visited r', Run (fun state => !state.2.isEmpty) body (state, r) visited (final, r') ∧
      visited.length ≤ r.rest.length := by
  induction values generalizing state r with
  | nil =>
    have empty := sequence_nil_iff.mp wire
    cases folded
    exact ⟨[], r, .done (by simp [(Reader.isEmpty_iff r).mpr empty]), Nat.zero_le _⟩
  | cons value rest ih =>
    obtain ⟨head, tail, split, headOk, tailOk⟩ := sequence_cons_iff.mp wire
    have inside := Reader.inside_of_rest split
    have positive := chunked.delimited.nonempty headOk
    obtain ⟨r', advanced⟩ := r.exists_advanced head.length tags inside
    have tailEq : r'.rest = tail := by rw [advanced.rest_eq, split, List.drop_left]
    have countBytes : r'.bytesRead = r.bytesRead + head.length := by
      rw [advanced.bytesRead, solvent.tracked.count_bytes inside]
    have countFields := advanced.fieldCount_eq solvent.tracked chunked.few
    have bytesBudget := affords.bytes
    have fieldsBudget := affords.fields
    simp only [split, List.length_append, List.length_cons, Nat.succ_mul] at bytesBudget fieldsBudget
    have solvent' : r'.Solvent := by
      refine ⟨advanced.tracked solvent.tracked (Nat.le_trans chunked.few positive), ?_, ?_⟩
      · rw [advanced.limits, countBytes]
        exact DecoderLimits.within_mono (by omega) bytesBudget
      · rw [advanced.limits, countFields]
        exact DecoderLimits.within_mono (by omega) fieldsBudget
    rw [List.foldlM_cons, Outcome.bind_eq_ok] at folded
    obtain ⟨next, applied, folded⟩ := folded
    have moved : body (state, r) = .ok (next, r') :=
      (chunked.step_iff solvent).mpr ⟨value, head, tail, split, headOk,
        affords.each value (by simp), applied, advanced, solvent'⟩
    have affords' : Affordable Fits tags r' rest := by
      refine ⟨fun other member => ?_, ?_, ?_⟩
      · rw [advanced.limits]
        exact affords.each other (by simp [member])
      · rw [advanced.limits, countBytes, tailEq, Nat.add_assoc]
        exact bytesBudget
      · rw [advanced.limits, countFields, Nat.add_assoc, Nat.add_comm tags]
        exact fieldsBudget
    obtain ⟨visited, final', run, bound⟩ := ih (by rwa [tailEq]) solvent' affords'
      (by rwa [advanced.limits, advanced.depth])
    refine ⟨(state, r) :: visited, final', .step ?_ moved run, ?_⟩
    · cases empty : r.isEmpty with
      | false => rfl
      | true =>
        rw [(Reader.isEmpty_iff r).mp empty] at split
        simp [(List.nil_eq_append_iff.mp split).1] at positive
    · rw [split, List.length_append, List.length_cons]
      rw [tailEq] at bound
      omega

/-- The loop succeeds exactly on affordable chunks whose effects succeed in turn. -/
theorem Chunked.drain_eq_ok_iff (chunked : Chunked Chunk Fits tags apply body) {state final : σ}
    {r : Reader} (solvent : r.Solvent) :
    (∃ r', r.drain body state = .ok (final, r')) ↔
      ∃ values : List β, Sequence Chunk values r.rest ∧ Affordable Fits tags r values ∧
        values.foldlM (apply r.limits r.depth) state = .ok final := by
  simp only [Reader.drain, loop_eq_ok_iff]
  constructor
  · rintro ⟨r', visited, run, _⟩
    exact chunked.run run solvent
  · rintro ⟨values, wire, affords, folded⟩
    obtain ⟨visited, r', run, bound⟩ := chunked.exists_run wire solvent affords folded
    exact ⟨r', visited, run, by rw [← Reader.rest_length]; exact bound⟩

end Loop

end TptProto.Core

/-! Moves of a cursor over bytes and tags within its budgets. They compose and can be cut where
the bytes are. -/

namespace TptProto.Core

open TptProto.Foundation

/-- The encodings of a tag that a reader takes for it. -/
def TagBytes (tag : Tag) (bytes : List UInt8) : Prop :=
  ∃ raw, WireVarint bytes raw ∧ tag.fieldNumber.toNat = raw.toNat / 8 % 2 ^ 32 ∧
    tag.wireType.asU8.toNat = raw.toNat % 8

theorem TagBytes.length_pos {tag : Tag} {bytes : List UInt8} (wire : TagBytes tag bytes) :
    0 < bytes.length := by
  obtain ⟨_, wire, _⟩ := wire
  exact wire.length_pos

/-- The cursor moves over bytes and their tags within its budgets. -/
structure Reader.Passes (r : Reader) (bytes : List UInt8) (tags : Nat) (r' : Reader) : Prop where
  here : ∃ rest, r.rest = bytes ++ rest
  moved : Reader.Advanced r bytes.length tags r'
  solvent : r'.Solvent

namespace Reader

variable {r r₁ r₂ : Reader} {bytes bytes' : List UInt8} {tags tags' : Nat}

theorem Advanced.append {n m : Nat} (first : Advanced r n tags r₁) (second : Advanced r₁ m tags' r₂) :
    Advanced r (n + m) (tags + tags') r₂ where
  buf := second.buf.trans first.buf
  pos := by rw [second.pos, first.pos, Nat.add_assoc]
  depth := second.depth.trans first.depth
  fieldCount := by
    rw [second.fieldCount, first.fieldCount]
    by_cases none : tags = 0
    · simp [none]
    · by_cases none' : tags' = 0
      · simp [none']
      · rw [if_neg none, if_neg none', if_neg (by omega), usizeAdd_assoc]
  limits := second.limits.trans first.limits
  bytesRead := by rw [second.bytesRead, first.bytesRead, usizeAdd_assoc]

/-- Tags that all lie within the bytes passed are counted without wrapping. -/
theorem Advanced.count {n : Nat} (moved : Advanced r n tags r₁) (tracked : r.Tracked)
    (covered : tags ≤ n) : r₁.fieldCount = r.fieldCount + tags := by
  have bound := r.buf.length_lt_usize
  have inside := moved.inside
  have := tracked.fields
  rw [moved.fieldCount]
  split
  · omega
  · exact usizeAdd_of_lt (by omega)

theorem Passes.append (first : r.Passes bytes tags r₁) (second : r₁.Passes bytes' tags' r₂) :
    r.Passes (bytes ++ bytes') (tags + tags') r₂ := by
  obtain ⟨rest, here⟩ := first.here
  obtain ⟨rest', there⟩ := second.here
  refine ⟨⟨rest', ?_⟩, ?_, second.solvent⟩
  · rw [first.moved.rest_eq, here, List.drop_left] at there
    rw [here, there, List.append_assoc]
  · rw [List.length_append]
    exact first.moved.append second.moved

/-- A move within the budgets can be stopped halfway. -/
theorem Passes.split (whole : r.Passes (bytes ++ bytes') (tags + tags') r₂) (solvent : r.Solvent)
    (covered : tags ≤ bytes.length) (covered' : tags' ≤ bytes'.length) :
    ∃ r₁, r.Passes bytes tags r₁ ∧ r₁.Passes bytes' tags' r₂ := by
  obtain ⟨⟨rest, here⟩, moved, final⟩ := whole
  rw [List.length_append] at moved
  have inside := moved.inside
  have tracked := solvent.tracked
  obtain ⟨r₁, halfway⟩ := r.exists_advanced bytes.length tags (by omega)
  have count := halfway.count tracked covered
  have count' := moved.count tracked (by omega)
  have read := halfway.bytesRead
  rw [tracked.count_bytes (by omega)] at read
  have read' := moved.bytesRead
  rw [tracked.count_bytes (by omega)] at read'
  have there : r₁.rest = bytes' ++ rest := by
    rw [halfway.rest_eq, here, List.append_assoc, List.drop_left]
  refine ⟨r₁, ⟨⟨bytes' ++ rest, by rw [here, List.append_assoc]⟩, halfway,
    halfway.tracked tracked covered, ?_, ?_⟩, ⟨rest, there⟩, ?_, final⟩
  · have budget := final.bytes
    rw [read', moved.limits] at budget
    rw [read, halfway.limits]
    exact DecoderLimits.within_mono (by omega) budget
  · have budget := final.fields
    rw [count', moved.limits] at budget
    rw [count, halfway.limits]
    exact DecoderLimits.within_mono (by omega) budget
  · have bound := r₁.pos_lt
    have := (halfway.tracked tracked covered).fields
    have := r.buf.length_lt_usize
    refine ⟨by rw [moved.buf, halfway.buf], by rw [moved.pos, halfway.pos, Nat.add_assoc],
      by rw [moved.depth, halfway.depth], ?_, by rw [moved.limits, halfway.limits],
      by rw [moved.bytesRead, halfway.bytesRead, usizeAdd_assoc]⟩
    rw [count', count]
    split
    · omega
    · have := halfway.pos
      rw [usizeAdd_of_lt (by omega)]
      omega

/-- A cursor moves over bytes that stand there if its budgets have room for them. -/
theorem exists_passes (solvent : r.Solvent) {rest : List UInt8} (here : r.rest = bytes ++ rest)
    (covered : tags ≤ bytes.length)
    (budget : DecoderLimits.within r.limits.maxBytes (r.bytesRead + bytes.length) = true)
    (fields : DecoderLimits.within r.limits.maxFields (r.fieldCount + tags) = true) :
    ∃ r', r.Passes bytes tags r' := by
  have tracked := solvent.tracked
  obtain ⟨r', moved⟩ := r.exists_advanced bytes.length tags (inside_of_rest here)
  refine ⟨r', ⟨rest, here⟩, moved, moved.tracked tracked covered, ?_, ?_⟩
  · rwa [moved.bytesRead, tracked.count_bytes moved.inside, moved.limits]
  · rwa [moved.count tracked covered, moved.limits]

theorem readTag_passes (solvent : r.Solvent) {tag : Tag} :
    r.readTag = .ok (tag, r₁) ↔ ∃ bytes, TagBytes tag bytes ∧ r.Passes bytes 1 r₁ := by
  have tracked := solvent.tracked
  rw [readTag_wire tracked]
  constructor
  · rintro ⟨bytes, rest, raw, here, wire, number, kind, budget, fields, moved⟩
    have count := moved.count tracked wire.length_pos
    refine ⟨bytes, ⟨raw, wire, number, kind⟩, ⟨rest, here⟩, moved, moved.tracked tracked wire.length_pos,
      ?_, ?_⟩
    · rwa [moved.bytesRead, tracked.count_bytes moved.inside, moved.limits]
    · rwa [count, moved.limits]
  · rintro ⟨bytes, ⟨raw, wire, number, kind⟩, ⟨rest, here⟩, moved, final⟩
    have budget := final.bytes
    have fields := final.fields
    rw [moved.bytesRead, tracked.count_bytes moved.inside, moved.limits] at budget
    rw [moved.count tracked wire.length_pos, moved.limits] at fields
    exact ⟨bytes, rest, raw, here, wire, number, kind, budget, fields, moved⟩

theorem readValue_passes (solvent : r.Solvent) {wireType : WireType} {value : UnknownValue} :
    readUnknownValue wireType r = .ok (value, r₁) ↔ ∃ bytes, value.wireType = wireType ∧
      ValueBytes value bytes ∧ value.Fits r.limits ∧ r.Passes bytes 0 r₁ := by
  have tracked := solvent.tracked
  rw [readUnknownValue_wire tracked]
  constructor
  · rintro ⟨bytes, rest, here, kind, wire, fits, budget, moved⟩
    refine ⟨bytes, kind, wire, fits, ⟨rest, here⟩, moved, moved.tracked tracked (Nat.zero_le _), ?_, ?_⟩
    · rwa [moved.bytesRead, tracked.count_bytes moved.inside, moved.limits]
    · rw [moved.count tracked (Nat.zero_le _), moved.limits]
      exact solvent.fields
  · rintro ⟨bytes, kind, wire, fits, ⟨rest, here⟩, moved, final⟩
    have budget := final.bytes
    rw [moved.bytesRead, tracked.count_bytes moved.inside, moved.limits] at budget
    exact ⟨bytes, rest, here, kind, wire, fits, budget, moved⟩

theorem readBody_passes (solvent : r.Solvent) {body : Slice} :
    r.readLengthDelimited = .ok (body, r₁) ↔ ∃ bytes,
      ValueBytes (.lengthDelimited body.bytes) bytes ∧
        DecoderLimits.within r.limits.maxLengthDelimited body.length = true ∧ r.Passes bytes 0 r₁ := by
  have value := @readValue_passes r r₁ solvent .lengthDelimited (.lengthDelimited body.bytes)
  constructor
  · intro read
    obtain ⟨bytes, _, wire, fits, passed⟩ := value.mp (by rw [readUnknownValue, read]; rfl)
    exact ⟨bytes, wire, fits, passed⟩
  · rintro ⟨bytes, wire, fits, passed⟩
    obtain ⟨⟨body', _⟩, read, same⟩ := Outcome.bind_eq_ok.mp (value.mpr ⟨bytes, rfl, wire, fits, passed⟩)
    cases body
    cases body'
    cases same
    exact read

end Reader

end TptProto.Core
