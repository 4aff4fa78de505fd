import TptProto.Core.Collect
import TptProto.Core.Packed

/-! Progress of the cursor. Positions are added to 64-bit lengths modulo `2 ^ 64`;
whether a read stays inside the buffer rests on those sums not wrapping back into it. -/

namespace TptProto.Core

open TptProto.Foundation

namespace Reader

/-- The calls a decoder makes on a cursor. -/
inductive Call where
  | readTag
  | readVarint
  | readFixed32
  | readFixed64
  | readLengthDelimited
  | skip (wireType : WireType)
  | readRawValue (wireType : WireType)

def Call.run : Call → Reader → Result Reader
  | readTag, r => Prod.snd <$> r.readTag
  | readVarint, r => Prod.snd <$> r.readVarint
  | readFixed32, r => Prod.snd <$> r.readFixed32
  | readFixed64, r => Prod.snd <$> r.readFixed64
  | readLengthDelimited, r => Prod.snd <$> r.readLengthDelimited
  | skip wireType, r => r.skip wireType
  | readRawValue wireType, r => Prod.snd <$> Reader.readRawValue wireType r

/-- The cursors a decoder can hold over a buffer: fresh at any depth, placed, or
left by a successful call. A failed call ends the decode. -/
inductive Reachable (buf : Slice) (limits : DecoderLimits) : Reader → Prop where
  | start (depth : UInt32) : Reachable buf limits { withLimits buf limits with depth }
  | placed {r r' : Reader} {pos : Nat} (before : Reachable buf limits r)
      (moved : r.setPos pos = .ok r') : Reachable buf limits r'
  | called {r r' : Reader} {call : Call} (before : Reachable buf limits r)
      (moved : call.run r = .ok r') : Reachable buf limits r'

/-- The amounts `advance` is called with: the bytes of a varint just decoded, a
fixed width already checked, or an admitted length just read. -/
inductive Amount (buf : Slice) (limits : DecoderLimits) (r : Reader) : Nat → Prop where
  | varint {value : UInt64} {n : Nat} (decoded : decodeVarint r.buf.bytes r.pos = .ok (value, n)) :
      Amount buf limits r n
  | fixed32 (inside : usizeAdd r.pos 4 ≤ r.buf.length) : Amount buf limits r 4
  | fixed64 (inside : usizeAdd r.pos 8 ≤ r.buf.length) : Amount buf limits r 8
  | length {before : Reader} {len : UInt64} (reachable : Reachable buf limits before)
      (read : before.readVarint = .ok (len, r))
      (admitted : DecoderLimits.within limits.maxLengthDelimited len.toNat = true) :
      Amount buf limits r len.toNat

/-- A result is an error or a cursor strictly further on in the same buffer. -/
def Progress (r : Reader) : Result Reader → Prop
  | .ok r' => r'.buf = r.buf ∧ r.pos < r'.pos ∧ r'.pos ≤ r.buf.length
  | .err _ => True
  | .panic | .outOfFuel => False

/-- One pass of `while !r.is_empty() { let tag = r.read_tag()?; r.skip(tag.wire_type)?; }`. -/
def skipStep (state : Unit × Reader) : Result (Unit × Reader) := do
  let (tag, r) ← state.2.readTag
  let r ← r.skip tag.wireType
  .ok ((), r)

/-- Every call on every reachable cursor makes progress, and both decode loops end. -/
structure Progressive (buf : Slice) (limits : DecoderLimits) : Prop where
  calls : ∀ r, Reachable buf limits r → ∀ call : Call, Progress r (call.run r)
  advance : ∀ r, Reachable buf limits r → ∀ n, Amount buf limits r n → 0 < n →
    Progress r (r.advance n)
  skipLoop : ∀ r, Reachable buf limits r →
    ∃ passes, (loop (fun state => !state.2.isEmpty) skipStep passes ((), r)).Returns
  storeLoop : ∀ r, Reachable buf limits r → ∀ set,
    ∃ passes, (loop (fun state => !state.2.isEmpty) collectStep passes (set, r)).Returns

/-- No admitted length prefix reaches past the buffer and back into it modulo `2 ^ 64`. -/
def NoWrap (buf : Slice) (limits : DecoderLimits) : Prop :=
  ∀ pos len n, decodeVarint buf.bytes pos = .ok (len, n) →
    DecoderLimits.within limits.maxBytes n = true →
    DecoderLimits.within limits.maxLengthDelimited len.toNat = true →
    usizeAdd (pos + n) len.toNat ≤ buf.length → pos + n + len.toNat ≤ buf.length

/-- What holds of every reachable cursor. -/
structure Over (buf : Slice) (limits : DecoderLimits) (r : Reader) : Prop where
  buf : r.buf = buf
  limits : r.limits = limits
  spent : DecoderLimits.within r.limits.maxBytes r.bytesRead = true

/-- A cursor further on, still within its byte budget. -/
structure Forward (r r' : Reader) : Prop where
  buf : r'.buf = r.buf
  limits : r'.limits = r.limits
  further : r.pos < r'.pos
  spent : DecoderLimits.within r'.limits.maxBytes r'.bytesRead = true

/-- A result that makes progress and keeps the budget. -/
def Sound (r : Reader) (result : Result Reader) : Prop :=
  result.Returns ∧ ∀ r', result = .ok r' → Forward r r'

variable {buf : Slice} {limits : DecoderLimits} {r r' r'' : Reader}

theorem Sound.progress {result : Result Reader} (sound : Sound r result) : Progress r result := by
  obtain ⟨returns, forward⟩ := sound
  cases result with
  | ok next =>
    have moved := forward next rfl
    have inside := next.pos_le
    rw [moved.buf] at inside
    exact ⟨moved.buf, moved.further, inside⟩
  | err _ => trivial
  | panic | outOfFuel => exact returns

theorem Forward.over (forward : Forward r r') (placed : Over buf limits r) : Over buf limits r' where
  buf := forward.buf.trans placed.buf
  limits := forward.limits.trans placed.limits
  spent := forward.spent

theorem Forward.trans (first : Forward r r') (second : Forward r' r'') : Forward r r'' where
  buf := second.buf.trans first.buf
  limits := second.limits.trans first.limits
  further := Nat.lt_trans first.further second.further
  spent := second.spent

theorem Forward.remaining_lt (forward : Forward r r') : r'.remaining < r.remaining := by
  have inside := r'.pos_le
  have further := forward.further
  rw [forward.buf] at inside
  simp only [remaining, forward.buf]
  omega

theorem Advanced.forward {n tags : Nat} (moved : Advanced r n tags r') (positive : 0 < n)
    (budget : DecoderLimits.within r.limits.maxBytes (usizeAdd r.bytesRead n) = true) :
    Forward r r' where
  buf := moved.buf
  limits := moved.limits
  further := by rw [moved.pos]; omega
  spent := by rwa [moved.limits, moved.bytesRead]

/-- A budget met before and after a short read also covers the read by itself. -/
theorem Over.covers (placed : Over buf limits r) {n : Nat} (short : n ≤ 10)
    (budget : DecoderLimits.within r.limits.maxBytes (usizeAdd r.bytesRead n) = true) :
    DecoderLimits.within limits.maxBytes n = true := by
  have spent := placed.spent
  rw [placed.limits] at spent budget
  cases cap : limits.maxBytes with
  | none => rfl
  | some most =>
    simp only [cap, DecoderLimits.within, decide_eq_true_eq] at spent budget ⊢
    unfold usizeAdd at budget
    omega

/-- The fact each length-delimited path needs: after an admitted length is read, the
sum with the position does not wrap into the buffer. -/
theorem NoWrap.length (noWrap : NoWrap buf limits) (placed : Over buf limits r) {len : UInt64}
    (read : r.readVarint = .ok (len, r'))
    (admitted : DecoderLimits.within limits.maxLengthDelimited len.toNat = true)
    (wrapped : usizeAdd r'.pos len.toNat ≤ r'.buf.length) :
    r'.pos + len.toNat ≤ r'.buf.length := by
  obtain ⟨n, decoded, budget, moved⟩ := readVarint_eq_ok_iff.mp read
  have bounds := decodeVarint_bounds decoded
  rw [moved.pos, moved.buf, placed.buf] at wrapped ⊢
  rw [placed.buf] at decoded
  exact noWrap r.pos len n decoded (placed.covers bounds.2.1 budget) admitted wrapped

private theorem sound_of_advanced {α : Type} {result : Result (α × Reader)}
    (returns : result.Returns)
    (moves : ∀ value r', result = .ok (value, r') → Forward r r') :
    Sound r (Prod.snd <$> result) := by
  cases result with
  | ok pair =>
    refine ⟨trivial, fun r' same => ?_⟩
    cases same
    exact moves pair.1 pair.2 rfl
  | err _ => exact ⟨trivial, fun _ same => by cases same⟩
  | panic | outOfFuel => cases returns

theorem readVarint_forward {value : UInt64} (read : r.readVarint = .ok (value, r')) :
    Forward r r' := by
  obtain ⟨n, decoded, budget, moved⟩ := readVarint_eq_ok_iff.mp read
  exact moved.forward (decodeVarint_bounds decoded).1 budget

theorem readTag_forward {tag : Tag} (read : r.readTag = .ok (tag, r')) : Forward r r' := by
  obtain ⟨n, decoded, budget, _, moved⟩ := readTag_eq_ok_iff.mp read
  exact moved.forward (Tag.decode_bounds decoded).1 budget

theorem readFixed32_forward {value : UInt32} (read : r.readFixed32 = .ok (value, r')) :
    Forward r r' := by
  obtain ⟨_, _, budget, moved⟩ := readFixed32_eq_ok_iff.mp read
  exact moved.forward (by omega) budget

theorem readFixed64_forward {value : UInt64} (read : r.readFixed64 = .ok (value, r')) :
    Forward r r' := by
  obtain ⟨_, _, budget, moved⟩ := readFixed64_eq_ok_iff.mp read
  exact moved.forward (by omega) budget

theorem readLengthDelimited_forward {body : Slice} (read : r.readLengthDelimited = .ok (body, r')) :
    Forward r r' := by
  obtain ⟨len, n, decoded, _, _, _, _, budget, moved⟩ := readLengthDelimited_eq_ok_iff.mp read
  have bounds := decodeVarint_bounds decoded
  exact moved.forward (by omega) budget

/-- An advance that does not wrap moves by its argument and meets the budget. -/
theorem advance_of_noWrap {n : Nat} (noWrap : usizeAdd r.pos n ≤ r.buf.length →
      r.pos + n ≤ r.buf.length) (moved : r.advance n = .ok r') :
    DecoderLimits.within r.limits.maxBytes (usizeAdd r.bytesRead n) = true ∧
      Advanced r n 0 r' := by
  have inside : usizeAdd r.pos n ≤ r.buf.length := by
    unfold advance at moved
    split at moved
    · assumption
    · cases moved
  have fits := noWrap inside
  have small := r.buf.length_lt_usize
  exact ((advance_eq_ok_iff (by omega)).mp moved).2

theorem readLengthDelimited_returns (noWrap : NoWrap buf limits) (placed : Over buf limits r) :
    r.readLengthDelimited.Returns := by
  refine readVarint_returns.bind fun (len, next) read => ?_
  refine DecoderLimits.check_returns.bind fun _ admitted => ?_
  simp only [DecoderLimits.check_eq_ok] at admitted
  have forward := readVarint_forward read
  split
  · trivial
  · rename_i wrapped
    rw [forward.limits, placed.limits] at admitted
    have inside := noWrap.length placed read admitted (by omega)
    have small := next.buf.length_lt_usize
    rw [usizeAdd_of_lt (by omega)]
    exact (index_returns (by omega) inside).bind fun _ _ => advance_returns.bind fun _ _ => .ok _

/-- Skipping a length-delimited value: the length, then that many bytes. -/
def skipLengthDelimited (r : Reader) : Result Reader := do
  let (len, r) ← r.readVarint
  r.limits.checkLength len.toNat
  r.advance len.toNat

theorem skip_lengthDelimited : r.skip .lengthDelimited = r.skipLengthDelimited := by
  simp only [skip, skipInner, skipLengthDelimited]

private theorem skipLengthDelimited_sound (noWrap : NoWrap buf limits) (placed : Over buf limits r) :
    Sound r r.skipLengthDelimited := by
  constructor
  · exact readVarint_returns.bind fun _ _ => DecoderLimits.check_returns.bind fun _ _ =>
      advance_returns
  · intro r' moved
    simp only [skipLengthDelimited, Outcome.bind_eq_ok, Prod.exists, DecoderLimits.checkLength,
      DecoderLimits.check_eq_ok, exists_const] at moved
    obtain ⟨len, next, read, admitted, moved⟩ := moved
    have forward := readVarint_forward read
    rw [forward.limits, placed.limits] at admitted
    obtain ⟨budget, advanced⟩ := advance_of_noWrap (noWrap.length placed read admitted) moved
    exact ⟨advanced.buf.trans forward.buf, advanced.limits.trans forward.limits,
      by have := forward.further; rw [advanced.pos]; omega,
      by rw [advanced.limits, advanced.bytesRead]; exact budget⟩

/-- Every pass of the group loop, the last one included, reads at least a tag. -/
private theorem skipGroupStep_sound {skipField : WireType → Reader → Result Reader}
    {state : Reader × Bool} (placed : Over buf limits state.1)
    (fields : ∀ wireType r', Over buf limits r' → r'.remaining < state.1.remaining →
      Sound r' (skipField wireType r')) :
    (skipGroupStep skipField state).Returns ∧
      ∀ next, skipGroupStep skipField state = .ok next → Forward state.1 next.1 := by
  have inner (tag : Tag) (after : Reader) (read : state.1.readTag = .ok (tag, after)) :
      Forward state.1 after ∧ Sound after (skipField tag.wireType after) :=
    have forward := readTag_forward read
    ⟨forward, fields _ _ (forward.over placed) forward.remaining_lt⟩
  unfold skipGroupStep
  split
  · exact ⟨trivial, fun _ same => by cases same⟩
  · constructor
    · refine readTag_returns.bind fun pair read => ?_
      simp only
      split
      · trivial
      · exact (inner pair.1 pair.2 read).2.1.bind fun _ _ => .ok _
    · intro next moved
      simp only [Outcome.bind_eq_ok, Prod.exists] at moved
      obtain ⟨tag, after, read, moved⟩ := moved
      obtain ⟨forward, sound⟩ := inner tag after read
      split at moved
      · cases moved
        exact forward
      · simp only [Outcome.bind_eq_ok] at moved
        obtain ⟨last, skipped, same⟩ := moved
        cases same
        exact forward.trans (sound.2 last skipped)

/-- At the head of the group loop: not started yet, or further on. -/
private def InGroup (r : Reader) (state : Reader × Bool) : Prop :=
  state = (r, true) ∨ Forward r state.1

private def groupMeasure (state : Reader × Bool) : Nat :=
  if state.2 then state.1.remaining + 1 else 0

private theorem InGroup.over {state : Reader × Bool} (inGroup : InGroup r state)
    (placed : Over buf limits r) : Over buf limits state.1 ∧ state.1.remaining ≤ r.remaining := by
  rcases inGroup with rfl | forward
  · exact ⟨placed, Nat.le_refl _⟩
  · exact ⟨forward.over placed, Nat.le_of_lt forward.remaining_lt⟩

private theorem InGroup.next {state next : Reader × Bool} (inGroup : InGroup r state)
    (forward : Forward state.1 next.1) : InGroup r next := by
  rcases inGroup with rfl | earlier
  · exact .inr forward
  · exact .inr (earlier.trans forward)

private theorem skipGroup_sound {skipField : WireType → Reader → Result Reader}
    (fields : ∀ wireType r', Over buf limits r' → r'.remaining < r.remaining →
      Sound r' (skipField wireType r'))
    (placed : Over buf limits r) {passes : Nat} (enough : r.remaining + 1 ≤ passes) :
    Sound r (do
      let (r, _) ← loop Prod.snd (skipGroupStep skipField) passes (r, true)
      .ok r) := by
  have step (state : Reader × Bool) (inGroup : InGroup r state) :
      (skipGroupStep skipField state).Returns ∧
        ∀ next, skipGroupStep skipField state = .ok next → Forward state.1 next.1 :=
    skipGroupStep_sound (inGroup.over placed).1 fun wireType r' inner smaller =>
      fields wireType r' inner (Nat.lt_of_lt_of_le smaller (inGroup.over placed).2)
  constructor
  · refine Outcome.Returns.bind ?_ fun _ _ => .ok _
    refine loop_returns groupMeasure (InGroup r) ?_ (fun state inGroup _ => (step state inGroup).1)
      ?_ (.inl rfl) (by simpa [groupMeasure] using enough)
    · intro state _ continues
      simp only [groupMeasure, continues, if_true]
      omega
    · intro state next inGroup continues moved
      have forward := (step state inGroup).2 next moved
      have := forward.remaining_lt
      refine ⟨inGroup.next forward, ?_⟩
      simp only [groupMeasure, continues, if_true]
      split <;> omega
  · intro r' finished
    simp only [Outcome.bind_eq_ok, Prod.exists] at finished
    obtain ⟨final, flag, finished, same⟩ := finished
    cases same
    obtain ⟨inGroup, lowered⟩ := loop_invariant finished (InGroup r) (.inl rfl)
      fun state next inGroup _ moved => inGroup.next ((step state inGroup).2 next moved)
    rcases inGroup with same | forward
    · cases same
      cases lowered
    · exact forward

/-- One case per wire type; a group costs one unit of budget and holds at least its end tag. -/
theorem skipInner_sound (noWrap : NoWrap buf limits) {fuel : Nat} {wireType : WireType}
    {depth : UInt32} (placed : Over buf limits r) (enough : r.remaining < fuel) :
    Sound r (skipInner fuel wireType depth r) := by
  induction fuel generalizing wireType depth r with
  | zero => omega
  | succ fuel ih =>
    cases wireType with
    | varint => exact sound_of_advanced readVarint_returns fun _ _ => readVarint_forward
    | fixed64 => exact sound_of_advanced readFixed64_returns fun _ _ => readFixed64_forward
    | fixed32 => exact sound_of_advanced readFixed32_returns fun _ _ => readFixed32_forward
    | lengthDelimited => exact skipLengthDelimited_sound noWrap placed
    | endGroup => exact ⟨trivial, fun _ same => by cases same⟩
    | startGroup =>
      unfold skipInner
      simp only
      split
      · exact ⟨trivial, fun _ same => by cases same⟩
      · exact skipGroup_sound
          (fun wireType r' inner smaller => ih inner (by omega)) placed (by omega)

theorem skip_sound (noWrap : NoWrap buf limits) {wireType : WireType} (placed : Over buf limits r) :
    Sound r (r.skip wireType) :=
  skipInner_sound noWrap placed (Nat.lt_succ_self _)

private theorem readFixedRaw_sound {α : Type} {read : Result (α × Reader)} {width : Nat}
    (returns : read.Returns) (forward : ∀ value r', read = .ok (value, r') → Forward r r') :
    Sound r (Prod.snd <$> (do
      let (_, r') ← read
      let part ← r'.bufSlice r.pos (usizeAdd r.pos width)
      .ok (part, r') : Result (Slice × Reader))) := by
  refine sound_of_advanced ?_ ?_
  · exact returns.bind fun _ _ => (Outcome.Returns.ofOption _ _).bind fun _ _ => .ok _
  · intro part r' moved
    simp only [Outcome.bind_eq_ok, Prod.exists, Outcome.ok.injEq, Prod.mk.injEq] at moved
    obtain ⟨value, next, done, _, _, _, rfl⟩ := moved
    exact forward value next done

theorem readVarintRaw_sound : Sound r (Prod.snd <$> (do
    let (_, raw, r) ← r.readVarintRaw
    .ok (raw, r) : Result (Slice × Reader))) := by
  refine sound_of_advanced ?_ ?_
  · refine Outcome.Returns.bind ?_ fun _ _ => .ok _
    refine decodeVarint_returns.bind fun (value, n) decoded => ?_
    have bounds := decodeVarint_bounds decoded
    have small := r.buf.length_lt
    refine (index_returns ?_ ?_).bind fun _ _ => advance_returns.bind fun _ _ => .ok _
    · rw [usizeAdd_of_lt (by omega)]
      omega
    · rw [usizeAdd_of_lt (by omega)]
      exact bounds.2.2
  · intro raw r' moved
    simp only [readVarintRaw, Outcome.bind_eq_ok, Prod.exists, Outcome.ok.injEq,
      Prod.mk.injEq] at moved
    obtain ⟨_, _, _, ⟨value, n, decoded, _, _, _, advanced, _, rfl, rfl⟩, _, rfl⟩ := moved
    have bounds := decodeVarint_bounds decoded
    obtain ⟨budget, advanced⟩ := advance_of_noWrap (fun _ => bounds.2.2) advanced
    exact advanced.forward bounds.1 budget

theorem readRawValue_sound (noWrap : NoWrap buf limits) {wireType : WireType}
    (placed : Over buf limits r) : Sound r (Prod.snd <$> Reader.readRawValue wireType r) := by
  cases wireType with
  | varint => exact readVarintRaw_sound
  | fixed32 => exact readFixedRaw_sound readFixed32_returns fun _ _ => readFixed32_forward
  | fixed64 => exact readFixedRaw_sound readFixed64_returns fun _ _ => readFixed64_forward
  | startGroup | endGroup => exact ⟨trivial, fun _ same => by cases same⟩
  | lengthDelimited =>
    refine sound_of_advanced ?_ ?_
    · refine readVarint_returns.bind fun pair read => ?_
      refine DecoderLimits.check_returns.bind fun _ _ => ?_
      simp only
      split
      · trivial
      · refine (Outcome.Returns.ofOption _ _).bind fun _ _ => Outcome.Returns.bind ?_ fun _ _ => .ok _
        unfold setPos
        split <;> trivial
    · intro framed r' moved
      simp only [Reader.readRawValue, Outcome.bind_eq_ok, Prod.exists, DecoderLimits.checkLength,
        DecoderLimits.check_eq_ok, exists_const] at moved
      obtain ⟨len, next, read, admitted, moved⟩ := moved
      have forward := readVarint_forward read
      rw [forward.limits, placed.limits] at admitted
      split at moved
      · cases moved
      · rename_i inside
        simp only [Outcome.bind_eq_ok, Outcome.ok.injEq, Prod.mk.injEq] at moved
        obtain ⟨_, _, _, moved, _, rfl⟩ := moved
        have fits := noWrap.length placed read admitted (by omega)
        have small := next.buf.length_lt_usize
        rw [usizeAdd_of_lt (by omega)] at moved
        rw [setPos, dif_pos fits] at moved
        cases moved
        refine ⟨forward.buf, forward.limits, ?_, forward.spent⟩
        have := forward.further
        simp only
        omega

theorem call_sound (noWrap : NoWrap buf limits) (placed : Over buf limits r) (call : Call) :
    Sound r (call.run r) := by
  cases call with
  | readTag => exact sound_of_advanced readTag_returns fun _ _ => readTag_forward
  | readVarint => exact sound_of_advanced readVarint_returns fun _ _ => readVarint_forward
  | readFixed32 => exact sound_of_advanced readFixed32_returns fun _ _ => readFixed32_forward
  | readFixed64 => exact sound_of_advanced readFixed64_returns fun _ _ => readFixed64_forward
  | readLengthDelimited =>
    exact sound_of_advanced (readLengthDelimited_returns noWrap placed)
      fun _ _ => readLengthDelimited_forward
  | skip wireType => exact skip_sound noWrap placed
  | readRawValue wireType => exact readRawValue_sound noWrap placed

/-- Placing the cursor leaves the budget alone, and calls keep it. -/
theorem Reachable.over (noWrap : NoWrap buf limits) (reachable : Reachable buf limits r) :
    Over buf limits r := by
  induction reachable with
  | start depth =>
    refine ⟨rfl, rfl, ?_⟩
    simp only [withLimits, DecoderLimits.within]
    split <;> simp
  | placed _ moved ih =>
    unfold setPos at moved
    split at moved
    · cases moved
      exact ⟨ih.buf, ih.limits, ih.spent⟩
    · cases moved
  | @called _ _ call _ moved ih => exact ((call_sound noWrap ih call).2 _ moved).over ih

private theorem wrapped_sound {α β : Type} {read : Result (α × Reader)} (wrap : α → β)
    (returns : read.Returns) (forward : ∀ value r', read = .ok (value, r') → Forward r r') :
    (do let (value, r) ← read; .ok (wrap value, r) : Result (β × Reader)).Returns ∧
      ∀ value r', (do let (value, r) ← read; .ok (wrap value, r)) = .ok (value, r') →
        Forward r r' := by
  refine ⟨returns.bind fun _ _ => .ok _, fun value r' done => ?_⟩
  simp only [Outcome.bind_eq_ok, Prod.exists, Outcome.ok.injEq, Prod.mk.injEq] at done
  obtain ⟨inner, _, done, _, rfl⟩ := done
  exact forward inner _ done

theorem readUnknownValue_sound (noWrap : NoWrap buf limits) {wireType : WireType}
    (placed : Over buf limits r) : (readUnknownValue wireType r).Returns ∧
      ∀ value r', readUnknownValue wireType r = .ok (value, r') → Forward r r' := by
  cases wireType with
  | varint => exact wrapped_sound UnknownValue.varint readVarint_returns fun _ _ => readVarint_forward
  | fixed32 => exact wrapped_sound UnknownValue.fixed32 readFixed32_returns fun _ _ => readFixed32_forward
  | fixed64 => exact wrapped_sound UnknownValue.fixed64 readFixed64_returns fun _ _ => readFixed64_forward
  | lengthDelimited =>
    exact wrapped_sound (fun body : Slice => UnknownValue.lengthDelimited body.bytes)
      (readLengthDelimited_returns noWrap placed) fun _ _ => readLengthDelimited_forward
  | startGroup | endGroup => exact ⟨trivial, fun _ _ same => by cases same⟩

/-- The body of a decode loop at a cursor: it returns, and then further on. -/
def Body {α : Type} (body : α × Reader → Result (α × Reader)) (state : α × Reader) : Prop :=
  (body state).Returns ∧ ∀ next, body state = .ok next → Forward state.2 next.2

theorem skipStep_body (noWrap : NoWrap buf limits) {state : Unit × Reader}
    (placed : Over buf limits state.2) : Body skipStep state := by
  constructor
  · refine readTag_returns.bind fun pair read => Outcome.Returns.bind ?_ fun _ _ => .ok _
    exact (skip_sound noWrap ((readTag_forward read).over placed)).1
  · intro next moved
    simp only [skipStep, Outcome.bind_eq_ok, Prod.exists] at moved
    obtain ⟨tag, after, read, last, skipped, same⟩ := moved
    cases same
    have forward := readTag_forward read
    exact forward.trans ((skip_sound noWrap (forward.over placed)).2 last skipped)

theorem collectStep_body (noWrap : NoWrap buf limits) {state : UnknownFieldSet × Reader}
    (placed : Over buf limits state.2) : Body collectStep state := by
  constructor
  · refine readTag_returns.bind fun (tag, after) read => ?_
    have returns : (readUnknownValue tag.wireType after).Returns :=
      (readUnknownValue_sound noWrap ((readTag_forward read).over placed)).1
    unfold UnknownFieldSet.stored UnknownFieldSet.store
    refine Outcome.Returns.bind ?_ fun _ _ => .ok _
    cases stored : readUnknownValue tag.wireType after with
    | ok pair => exact DecoderLimits.check_returns.bind fun _ _ => .ok _
    | err _ => trivial
    | panic | outOfFuel =>
      rw [stored] at returns
      cases returns
  · intro next moved
    simp only [collectStep, Outcome.bind_eq_ok, Prod.exists] at moved
    obtain ⟨tag, after, read, stored⟩ := moved
    obtain ⟨value, stored, _⟩ := stored_eq_ok_iff.mp stored
    have forward := readTag_forward read
    exact forward.trans ((readUnknownValue_sound noWrap (forward.over placed)).2 _ _ stored)

/-- A decode loop whose every pass moves forward ends within one pass a byte. -/
theorem drain_returns {α : Type} {body : α × Reader → Result (α × Reader)} {start : α}
    (bodies : ∀ state, Over buf limits state.2 → Body body state) (placed : Over buf limits r) :
    (r.drain body start).Returns := by
  refine loop_returns (fun state => state.2.remaining) (fun state => Over buf limits state.2) ?_
    (fun state placed _ => (bodies state placed).1) ?_ placed (Nat.le_refl _)
  · intro state _ continues
    simp only [Bool.not_eq_true', isEmpty_eq_false_iff] at continues
    simp only [remaining]
    omega
  · intro state next placed _ moved
    have forward := (bodies state placed).2 next moved
    exact ⟨forward.over placed, forward.remaining_lt⟩

private theorem amount_noWrap (noWrap : NoWrap buf limits) {n : Nat} (amount : Amount buf limits r n)
    (wrapped : usizeAdd r.pos n ≤ r.buf.length) : r.pos + n ≤ r.buf.length := by
  have small := r.pos_lt
  cases amount with
  | varint decoded => exact (decodeVarint_bounds decoded).2.2
  | fixed32 | fixed64 => rwa [usizeAdd_of_lt (by omega)] at wrapped
  | length reachable read admitted => exact noWrap.length (reachable.over noWrap) read admitted wrapped

/-- A wrapping prefix makes the length-delimited read at its position panic. -/
private theorem readLengthDelimited_wraps {pos n : Nat} {len : UInt64}
    (decoded : decodeVarint buf.bytes pos = .ok (len, n))
    (budget : DecoderLimits.within limits.maxBytes n = true)
    (admitted : DecoderLimits.within limits.maxLengthDelimited len.toNat = true)
    (wrapped : usizeAdd (pos + n) len.toNat ≤ buf.length)
    (outside : ¬ pos + n + len.toNat ≤ buf.length) :
    ∃ r, Reachable buf limits r ∧ r.readLengthDelimited = .panic := by
  have bounds := decodeVarint_bounds decoded
  have small := buf.length_lt_usize
  have length : buf.bytes.length = buf.length := rfl
  let start : Reader := { withLimits buf limits with pos := pos, pos_le := by simp only [withLimits]; omega }
  have placed : (withLimits buf limits).setPos pos = .ok start := by
    rw [setPos, dif_pos (by simp only [withLimits]; omega)]
  refine ⟨start, .placed (.start 0) placed, ?_⟩
  let after : Reader := { start with
    pos := pos + n, bytesRead := n, pos_le := by simp only [start, withLimits]; omega }
  have counted : usizeAdd start.bytesRead n = n := by
    rw [usizeAdd_of_lt (by simp only [start, withLimits]; omega)]
    simp [start, withLimits]
  have read : start.readVarint = .ok (len, after) := by
    refine readVarint_eq_ok_iff.mpr ⟨n, decoded, ?_, rfl, rfl, rfl, rfl, rfl, counted.symm⟩
    rw [counted]
    exact budget
  have check : after.limits.checkLength len.toNat = .ok () := DecoderLimits.check_eq_ok.mpr admitted
  have back : usizeAdd after.pos len.toNat < after.pos := by
    have bound := len.toNat_lt
    simp only [usizeAdd, after] at wrapped ⊢
    omega
  have inside : ¬ usizeAdd after.pos len.toNat > after.buf.length := Nat.not_lt.mpr wrapped
  simp only [readLengthDelimited, read, Outcome.ok_bind, check, if_neg inside, index,
    Slice.range?_eq_none back, Outcome.panic_bind]

/-- The cursor makes progress on every call, and both decode loops end, exactly when
no admitted length prefix of the buffer wraps. -/
theorem progressive_iff (buf : Slice) (limits : DecoderLimits) :
    Progressive buf limits ↔ NoWrap buf limits := by
  constructor
  · intro progressive pos len n decoded budget admitted wrapped
    refine Decidable.byContradiction fun outside => ?_
    obtain ⟨r, reachable, panics⟩ :=
      readLengthDelimited_wraps decoded budget admitted wrapped outside
    have progress := progressive.calls r reachable .readLengthDelimited
    rw [Call.run, panics] at progress
    exact progress
  · intro noWrap
    refine ⟨?_, ?_, ?_, ?_⟩
    · intro r reachable call
      exact (call_sound noWrap (reachable.over noWrap) call).progress
    · intro r reachable n amount positive
      refine Sound.progress ⟨advance_returns, fun r' moved => ?_⟩
      obtain ⟨budget, advanced⟩ := advance_of_noWrap (amount_noWrap noWrap amount) moved
      exact advanced.forward positive budget
    · intro r reachable
      exact ⟨_, drain_returns (fun _ => skipStep_body noWrap) (reachable.over noWrap)⟩
    · intro r reachable set
      exact ⟨_, drain_returns (fun _ => collectStep_body noWrap) (reachable.over noWrap)⟩

/-- Field 1 with a length eleven short of `2 ^ 64`, read from position 1. -/
def looping : Slice :=
  ⟨[0x0A, 0xF5, 0xFF, 0xFF, 0xFF, 0xFF, 0xFF, 0xFF, 0xFF, 0xFF, 0x01], by decide⟩

/-- A cursor over `looping` without limits, whatever it has counted. -/
def loopingAt (pos fieldCount bytesRead : Nat) (pos_le : pos ≤ looping.length) : Reader :=
  { withLimits looping .unlimited with pos, fieldCount, bytesRead, pos_le }

private theorem readTag_looping (fieldCount bytesRead : Nat) :
    (loopingAt 0 fieldCount bytesRead (by decide)).readTag =
      .ok (⟨1, .lengthDelimited, by decide⟩,
        loopingAt 1 (usizeAdd fieldCount 1) (usizeAdd bytesRead 1) (by decide)) := by
  have decoded : Tag.decode looping.bytes 0 = .ok (⟨1, .lengthDelimited, by decide⟩, 1) := by
    decide +kernel
  exact readTag_eq_ok_iff.mpr ⟨1, decoded, rfl, rfl, rfl, rfl, rfl, rfl, rfl, rfl⟩

private theorem readVarint_looping (fieldCount bytesRead : Nat) :
    (loopingAt 1 fieldCount bytesRead (by decide)).readVarint =
      .ok (18446744073709551605, loopingAt 11 fieldCount (usizeAdd bytesRead 10) (by decide)) := by
  have decoded : decodeVarint looping.bytes 1 = .ok (18446744073709551605, 10) := by
    decide +kernel
  exact readVarint_eq_ok_iff.mpr ⟨10, decoded, rfl, rfl, rfl, rfl, rfl, rfl, rfl⟩

/-- The sum of 11 and the length is `2 ^ 64`, position 0 again. -/
private theorem advance_looping (fieldCount bytesRead : Nat) :
    (loopingAt 11 fieldCount bytesRead (by decide)).advance 18446744073709551605 =
      .ok (loopingAt 0 fieldCount (usizeAdd bytesRead 18446744073709551605) (by decide)) := by
  have back : usizeAdd 11 18446744073709551605 = 0 := by decide
  simp only [advance, loopingAt, back]
  rfl

private theorem skipStep_looping (fieldCount bytesRead : Nat) :
    ∃ fieldCount' bytesRead', skipStep ((), loopingAt 0 fieldCount bytesRead (by decide)) =
      .ok ((), loopingAt 0 fieldCount' bytesRead' (by decide)) := by
  have amount : (18446744073709551605 : UInt64).toNat = 18446744073709551605 := by simp
  have admitted (fieldCount bytesRead : Nat) :
      (loopingAt 11 fieldCount bytesRead (by decide)).limits.checkLength 18446744073709551605 =
        .ok () := rfl
  refine ⟨usizeAdd fieldCount 1,
    usizeAdd (usizeAdd (usizeAdd bytesRead 1) 10) 18446744073709551605, ?_⟩
  rw [skipStep, readTag_looping, Outcome.ok_bind]
  simp only [skip_lengthDelimited]
  rw [skipLengthDelimited, readVarint_looping, Outcome.ok_bind]
  simp only [amount]
  rw [admitted, Outcome.ok_bind, advance_looping, Outcome.ok_bind]

/-- The skip loop over `looping` returns to its start forever. -/
theorem not_progressive_looping :
    (∀ passes, loop (fun state => !state.2.isEmpty) skipStep passes
      ((), withLimits looping .unlimited) = .outOfFuel) ∧ ¬ Progressive looping .unlimited := by
  have diverges : ∀ passes, loop (fun state => !state.2.isEmpty) skipStep passes
      ((), withLimits looping .unlimited) = .outOfFuel := loop_diverges
    (fun state => ∃ fieldCount bytesRead, state = ((), loopingAt 0 fieldCount bytesRead (by decide)))
    ⟨0, 0, rfl⟩ (by
      rintro _ ⟨fieldCount, bytesRead, rfl⟩
      obtain ⟨fieldCount', bytesRead', moved⟩ := skipStep_looping fieldCount bytesRead
      exact ⟨rfl, _, moved, _, _, rfl⟩)
  refine ⟨diverges, fun progressive => ?_⟩
  obtain ⟨passes, returns⟩ := progressive.skipLoop _ (.start 0)
  exact Outcome.returns_iff.mp returns |>.2 (diverges passes)

end Reader

end TptProto.Core
