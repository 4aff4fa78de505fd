import TptProto.Core.Progress
import TptProto.Foundation.Trace

/-! The byte budget of a cursor: what its successful reads consume, and what the cursor counts of it. -/

namespace TptProto.Core.Reader

open TptProto.Foundation

section Reads

/-- The reads of a cursor: the calls of a decoder, and those that return text and raw bytes. -/
inductive Read where
  | call (call : Call)
  | readVarintRaw
  | readStringOwned

def Read.run : Read → Reader → Result Reader
  | .call inner, r => inner.run r
  | readVarintRaw, r => (fun read => read.2.2) <$> r.readVarintRaw
  | readStringOwned, r => Prod.snd <$> r.readStringOwned

/-- A cursor, with how many bytes its reads have consumed. -/
structure Metered where
  reader : Reader
  consumed : Nat

/-- A successful read consumes the bytes that it moves the cursor over. -/
def Consumes (m : Metered) (read : Read) (m' : Metered) : Prop :=
  read.run m.reader = .ok m'.reader ∧ m'.consumed = m.consumed + (m'.reader.pos - m.reader.pos)

/-- A cursor that nothing has been read from, at any depth. -/
def fresh (buf : Slice) (limits : DecoderLimits) (depth : UInt32) : Metered :=
  ⟨{ withLimits buf limits with depth }, 0⟩

/-- After any of the reads, the cursor has counted what has been consumed, and it is no more than the
budget. -/
def Budgeted (most : Nat) (start : Metered) (reads : List Read) : Prop :=
  ∀ before after m, reads = before ++ after → Trace Consumes start before m →
    m.consumed ≤ most ∧ m.reader.bytesRead = m.consumed

/-- The lengths that a skip reads and then jumps over, and where the cursor stands behind each. -/
def Jumps : Nat → WireType → UInt32 → Reader → Reader → UInt64 → Prop
  | _, .lengthDelimited, _, r, r', len => r.readVarint = .ok (len, r')
  | fuel + 1, .startGroup, depth, r, r', len =>
    ∃ s tag s', Visits Prod.snd (skipGroupStep fun wireType => skipInner fuel wireType (depth + 1))
        (r, true) s ∧
      s.1.readTag = .ok (tag, s') ∧ Jumps fuel tag.wireType (depth + 1) s' r' len
  | _, _, _, _, _, _ => False

/-- No length that a skip jumps over takes the position past 64 bits. -/
def Read.Jumped (r : Reader) : Read → Prop
  | call (.skip wireType) =>
    ∀ r' len, Jumps (r.remaining + 1) wireType r.depth r r' len → r'.pos + len.toNat < 2 ^ 64
  | _ => True

/-- A length-delimited value that is read raw has no body. -/
def Read.Bodiless (r : Reader) : Read → Prop
  | call (.readRawValue .lengthDelimited) => ∀ len r', r.readVarint = .ok (len, r') → len = 0
  | _ => True

end Reads

section Counting

/-- A cursor further on, which counts what it has moved over if it has always done so. -/
structure Counted (r r' : Reader) : Prop where
  limits : r'.limits = r.limits
  forward : r.pos ≤ r'.pos
  level : r.bytesRead = r.pos → r'.bytesRead = r'.pos ∧
    DecoderLimits.within r'.limits.maxBytes r'.bytesRead = true

variable {r r' r'' : Reader}

theorem Counted.trans (first : Counted r r') (second : Counted r' r'') : Counted r r'' where
  limits := second.limits.trans first.limits
  forward := Nat.le_trans first.forward second.forward
  level even := second.level (first.level even).1

theorem Advanced.counted {n tags : Nat} (moved : Advanced r n tags r')
    (budget : DecoderLimits.within r.limits.maxBytes (usizeAdd r.bytesRead n) = true) : Counted r r' where
  limits := moved.limits
  forward := by
    rw [moved.pos]
    exact Nat.le_add_right _ _
  level even := by
    have inside := moved.inside
    have small := r.buf.length_lt_usize
    rw [moved.limits, moved.bytesRead, moved.pos]
    refine ⟨?_, budget⟩
    rw [even, usizeAdd_of_lt (by omega)]

theorem readVarint_counted {value : UInt64} (read : r.readVarint = .ok (value, r')) : Counted r r' := by
  obtain ⟨_, _, budget, moved⟩ := readVarint_eq_ok_iff.mp read
  exact moved.counted budget

theorem readTag_counted {tag : Tag} (read : r.readTag = .ok (tag, r')) : Counted r r' := by
  obtain ⟨_, _, budget, _, moved⟩ := readTag_eq_ok_iff.mp read
  exact moved.counted budget

theorem readFixed32_counted {value : UInt32} (read : r.readFixed32 = .ok (value, r')) : Counted r r' := by
  obtain ⟨_, _, budget, moved⟩ := readFixed32_eq_ok_iff.mp read
  exact moved.counted budget

theorem readFixed64_counted {value : UInt64} (read : r.readFixed64 = .ok (value, r')) : Counted r r' := by
  obtain ⟨_, _, budget, moved⟩ := readFixed64_eq_ok_iff.mp read
  exact moved.counted budget

theorem readLengthDelimited_counted {body : Slice} (read : r.readLengthDelimited = .ok (body, r')) :
    Counted r r' := by
  obtain ⟨_, _, _, _, _, _, _, budget, moved⟩ := readLengthDelimited_eq_ok_iff.mp read
  exact moved.counted budget

theorem readVarintRaw_counted {value : UInt64} {raw : Slice}
    (read : r.readVarintRaw = .ok (value, raw, r')) : Counted r r' := by
  simp only [readVarintRaw, Outcome.bind_eq_ok, Prod.exists, Outcome.ok.injEq, Prod.mk.injEq] at read
  obtain ⟨_, n, decoded, _, _, _, moved, _, _, rfl⟩ := read
  have bounds := decodeVarint_bounds decoded
  obtain ⟨budget, advanced⟩ := advance_of_noWrap (fun _ => bounds.2.2) moved
  exact advanced.counted budget

/-- One pass of the group loop counts what it moves over if the skip in it does. -/
private theorem skipGroupStep_counted {skipField : WireType → Reader → Result Reader}
    {state next : Reader × Bool}
    (fields : ∀ tag s s', state.1.readTag = .ok (tag, s) → skipField tag.wireType s = .ok s' → Counted s s')
    (moved : skipGroupStep skipField state = .ok next) : Counted state.1 next.1 := by
  unfold skipGroupStep at moved
  split at moved
  · cases moved
  · simp only [Outcome.bind_eq_ok, Prod.exists] at moved
    obtain ⟨tag, after, read, moved⟩ := moved
    split at moved
    · cases moved
      exact readTag_counted read
    · simp only [Outcome.bind_eq_ok, Outcome.ok.injEq] at moved
      obtain ⟨last, skipped, rfl⟩ := moved
      exact (readTag_counted read).trans (fields tag after last read skipped)

private theorem skipPlain_counted {fuel : Nat} {wireType : WireType} {depth : UInt32}
    (plain : wireType ≠ .startGroup)
    (jumps : ∀ s len, Jumps fuel wireType depth r s len → s.pos + len.toNat < 2 ^ 64)
    (skipped : skipInner fuel wireType depth r = .ok r') : Counted r r' := by
  unfold skipInner at skipped
  cases wireType with
  | varint =>
    simp only [Outcome.bind_eq_ok, Prod.exists, Outcome.ok.injEq] at skipped
    obtain ⟨_, _, read, rfl⟩ := skipped
    exact readVarint_counted read
  | fixed64 =>
    simp only [Outcome.bind_eq_ok, Prod.exists, Outcome.ok.injEq] at skipped
    obtain ⟨_, _, read, rfl⟩ := skipped
    exact readFixed64_counted read
  | fixed32 =>
    simp only [Outcome.bind_eq_ok, Prod.exists, Outcome.ok.injEq] at skipped
    obtain ⟨_, _, read, rfl⟩ := skipped
    exact readFixed32_counted read
  | lengthDelimited =>
    simp only [Outcome.bind_eq_ok, Prod.exists] at skipped
    obtain ⟨len, after, read, _, _, moved⟩ := skipped
    have small := jumps after len (by cases fuel <;> exact read)
    obtain ⟨_, budget, advanced⟩ := (advance_eq_ok_iff small).mp moved
    exact (readVarint_counted read).trans (advanced.counted budget)
  | startGroup => exact absurd rfl plain
  | endGroup => cases skipped

/-- A skip counts what it moves over if no length in it wraps. -/
theorem skipInner_counted {fuel : Nat} {wireType : WireType} {depth : UInt32}
    (jumps : ∀ s len, Jumps fuel wireType depth r s len → s.pos + len.toNat < 2 ^ 64)
    (skipped : skipInner fuel wireType depth r = .ok r') : Counted r r' := by
  induction fuel generalizing wireType depth r r' with
  | zero =>
    by_cases group : wireType = .startGroup
    · subst group
      cases skipped
    · exact skipPlain_counted group jumps skipped
  | succ fuel ih =>
    by_cases group : wireType = .startGroup
    · subst group
      simp only [skipInner] at skipped
      split at skipped
      · cases skipped
      · simp only [Outcome.bind_eq_ok, Prod.exists, Outcome.ok.injEq] at skipped
        obtain ⟨last, _, looped, rfl⟩ := skipped
        -- the first pass starts at the cursor itself, which need not have spent anything yet
        have passes := loop_keeps looped (fun state => state = (r, true) ∨ Counted r state.1) (.inl rfl) (by
          intro s s' visits held moved
          have pass := skipGroupStep_counted (fun tag after after' read skipped =>
            ih (fun r' len inside => jumps r' len ⟨s, tag, after, visits, read, inside⟩) skipped) moved
          rcases held with rfl | counted
          · exact .inr pass
          · exact .inr (counted.trans pass))
        obtain ⟨same | counted, finished⟩ := passes
        · cases same
          cases finished
        · exact counted
    · exact skipPlain_counted group jumps skipped

/-- A read from which the cursor is the second part. -/
private theorem run_eq_ok {α : Type} {read : Result (α × Reader)} (run : Prod.snd <$> read = .ok r') :
    ∃ value, read = .ok (value, r') := by
  cases read with
  | ok pair =>
    cases run
    exact ⟨pair.1, rfl⟩
  | err | panic | outOfFuel => cases run

/-- Reading a length-delimited value raw moves behind its body, of which nothing is counted. -/
private theorem readRaw_cases {framed : Slice}
    (read : readRawValue .lengthDelimited r = .ok (framed, r')) :
    ∃ len after, r.readVarint = .ok (len, after) ∧ r'.limits = after.limits ∧
      r'.pos = usizeAdd after.pos len.toNat ∧ r'.bytesRead = after.bytesRead := by
  simp only [readRawValue, Outcome.bind_eq_ok, Prod.exists, DecoderLimits.checkLength,
    DecoderLimits.check_eq_ok, exists_const] at read
  obtain ⟨len, after, prefixRead, _, read⟩ := read
  split at read
  · cases read
  · simp only [Outcome.bind_eq_ok, Outcome.ok.injEq, Prod.mk.injEq] at read
    obtain ⟨_, _, last, moved, _, rfl⟩ := read
    unfold setPos at moved
    split at moved
    · cases moved
      exact ⟨len, after, prefixRead, rfl, rfl, rfl⟩
    · cases moved

private theorem readRawValue_counted {wireType : WireType} {raw : Slice}
    (bodiless : (Read.call (.readRawValue wireType)).Bodiless r)
    (read : readRawValue wireType r = .ok (raw, r')) : Counted r r' := by
  cases wireType with
  | varint =>
    simp only [readRawValue, Outcome.bind_eq_ok, Prod.exists, Outcome.ok.injEq, Prod.mk.injEq] at read
    obtain ⟨_, _, _, read, _, rfl⟩ := read
    exact readVarintRaw_counted read
  | fixed32 =>
    simp only [readRawValue, Outcome.bind_eq_ok, Prod.exists, Outcome.ok.injEq, Prod.mk.injEq] at read
    obtain ⟨_, _, read, _, _, _, rfl⟩ := read
    exact readFixed32_counted read
  | fixed64 =>
    simp only [readRawValue, Outcome.bind_eq_ok, Prod.exists, Outcome.ok.injEq, Prod.mk.injEq] at read
    obtain ⟨_, _, read, _, _, _, rfl⟩ := read
    exact readFixed64_counted read
  | lengthDelimited =>
    obtain ⟨len, after, prefixRead, limits, pos, bytesRead⟩ := readRaw_cases read
    have empty := bodiless len after prefixRead
    have counted := readVarint_counted prefixRead
    have small := after.pos_lt
    have same : r'.pos = after.pos := by
      rw [pos, empty]
      exact usizeAdd_of_lt (by simpa using by omega)
    refine ⟨limits.trans counted.limits, by rw [same]; exact counted.forward, fun even => ?_⟩
    rw [limits, same, bytesRead]
    exact counted.level even
  | startGroup | endGroup => cases read

/-- A read counts what it moves over if no length wraps in it and no body is read raw. -/
theorem read_counted {read : Read} (jumped : read.Jumped r) (bodiless : read.Bodiless r)
    (run : read.run r = .ok r') : Counted r r' := by
  cases read with
  | readVarintRaw =>
    cases raw : r.readVarintRaw with
    | ok parts =>
      rw [Read.run, raw] at run
      cases run
      exact readVarintRaw_counted raw
    | err | panic | outOfFuel =>
      rw [Read.run, raw] at run
      cases run
  | readStringOwned =>
    obtain ⟨text, read⟩ := run_eq_ok run
    simp only [readStringOwned, Outcome.bind_eq_ok, Prod.exists, Outcome.ok.injEq, Prod.mk.injEq] at read
    obtain ⟨_, _, body, _, _, _, _, _, rfl⟩ := read
    exact readLengthDelimited_counted body
  | call call =>
    cases call with
    | readTag => exact (run_eq_ok run).elim fun _ => readTag_counted
    | readVarint => exact (run_eq_ok run).elim fun _ => readVarint_counted
    | readFixed32 => exact (run_eq_ok run).elim fun _ => readFixed32_counted
    | readFixed64 => exact (run_eq_ok run).elim fun _ => readFixed64_counted
    | readLengthDelimited => exact (run_eq_ok run).elim fun _ => readLengthDelimited_counted
    | skip wireType => exact skipInner_counted jumped run
    | readRawValue wireType => exact (run_eq_ok run).elim fun _ => readRawValue_counted bodiless

end Counting

section Runs

/-- The cursor has counted what its reads have consumed, which is all that it has moved over and no more
than its budget. -/
structure Accurate (most : Nat) (m : Metered) : Prop where
  limit : m.reader.limits.maxBytes = some most
  counted : m.reader.bytesRead = m.reader.pos
  consumed : m.consumed = m.reader.pos
  spent : m.consumed ≤ most

variable {buf : Slice} {limits : DecoderLimits} {depth : UInt32} {most : Nat} {reads : List Read}
  {m m' final : Metered} {read : Read}

theorem fresh_accurate (limited : limits.maxBytes = some most) : Accurate most (fresh buf limits depth) :=
  ⟨limited, rfl, rfl, Nat.zero_le most⟩

theorem Accurate.step (accurate : Accurate most m) (jumped : read.Jumped m.reader)
    (bodiless : read.Bodiless m.reader) (taken : Consumes m read m') : Accurate most m' := by
  obtain ⟨run, consumed⟩ := taken
  have counted := read_counted jumped bodiless run
  obtain ⟨even, within⟩ := counted.level accurate.counted
  have forward := counted.forward
  have same : m'.consumed = m'.reader.pos := by
    rw [consumed, accurate.consumed]
    omega
  refine ⟨by rw [counted.limits]; exact accurate.limit, even, same, ?_⟩
  rw [counted.limits, accurate.limit] at within
  rw [same, ← even]
  exact of_decide_eq_true within

/-- A body that is read raw is consumed and not counted. -/
theorem Accurate.bodiless (accurate : Accurate most m) (taken : Consumes m read m')
    (counted : m'.reader.bytesRead = m'.consumed) : read.Bodiless m.reader := by
  obtain ⟨run, consumed⟩ := taken
  cases read with
  | readVarintRaw | readStringOwned => trivial
  | call call =>
    cases call with
    | readTag | readVarint | readFixed32 | readFixed64 | readLengthDelimited | skip => trivial
    | readRawValue wireType =>
      cases wireType with
      | varint | fixed32 | fixed64 | startGroup | endGroup => trivial
      | lengthDelimited =>
        intro len after prefixRead
        obtain ⟨framed, read⟩ := run_eq_ok run
        obtain ⟨_, _, prefixRead', _, pos, bytesRead⟩ := readRaw_cases read
        cases prefixRead.symm.trans prefixRead'
        have further := (readVarint_forward prefixRead).further
        have even := ((readVarint_counted prefixRead).level accurate.counted).1
        have small := after.pos_lt
        have short := len.toNat_lt
        rw [bytesRead, even, consumed, accurate.consumed, pos] at counted
        unfold usizeAdd at counted
        apply UInt64.toNat_inj.mp
        rw [UInt64.toNat_zero]
        omega

private theorem consumes_unique {m first second : Metered} (one : Consumes m read first)
    (other : Consumes m read second) : first = second := by
  obtain ⟨reader, consumed⟩ := first
  obtain ⟨reader', consumed'⟩ := second
  obtain ⟨run, total⟩ := one
  obtain ⟨run', total'⟩ := other
  cases run.symm.trans run'
  cases total.trans total'.symm
  rfl

/-- A run is accurate in every state if each step from an accurate state leads to one. -/
private theorem run_accurate {meets : Metered → Read → Prop} (limited : limits.maxBytes = some most)
    (all : Throughout Consumes meets (fresh buf limits depth) reads)
    (step : ∀ m read m', Accurate most m → meets m read → Consumes m read m' → Accurate most m')
    {before after : List Read} (split : reads = before ++ after)
    (reached : Trace Consumes (fresh buf limits depth) before m) : Accurate most m := by
  subst split
  exact reached.invariant all.before (fresh_accurate limited) step

/-- Where no skip wraps and no body is read raw, all that the reads of a run consume is counted, and
stays within the budget. Where no skip wraps, this holds of no run in which a body is read raw. -/
theorem byte_budget_iff (limited : limits.maxBytes = some most)
    (run : Trace Consumes (fresh buf limits depth) reads final) :
    (Throughout Consumes (fun m read => read.Jumped m.reader ∧ read.Bodiless m.reader)
        (fresh buf limits depth) reads → Budgeted most (fresh buf limits depth) reads) ∧
      (Throughout Consumes (fun m read => read.Jumped m.reader) (fresh buf limits depth) reads →
        Budgeted most (fresh buf limits depth) reads →
          Throughout Consumes (fun m read => read.Bodiless m.reader) (fresh buf limits depth) reads) := by
  constructor
  · intro all before after m split reached
    have accurate := run_accurate limited all
      (fun m read m' accurate meets taken => accurate.step meets.1 meets.2 taken) split reached
    exact ⟨accurate.spent, accurate.counted.trans accurate.consumed.symm⟩
  · intro jumps budgeted
    have counts : Throughout Consumes (fun m read => read.Jumped m.reader ∧
        ∀ m', Consumes m read m' → m'.reader.bytesRead = m'.consumed) (fresh buf limits depth) reads := by
      intro before read after m split reached
      refine ⟨jumps before read after m split reached, fun m' taken => ?_⟩
      apply (budgeted (before ++ [read]) after m' (by rw [split, List.append_assoc]; rfl) _).2
      exact Trace.append_iff.mpr ⟨m, reached, .cons taken (.nil m')⟩
    intro before read after m split reached
    have accurate := run_accurate limited counts (fun m read m' accurate meets taken =>
      accurate.step meets.1 (accurate.bodiless taken (meets.2 m' taken)) taken) split reached
    -- the run makes the step, so it is one that succeeds
    rw [split] at run
    obtain ⟨middle, next, reached', taken, _⟩ := run.split
    cases @Trace.unique _ _ Consumes (fun _ _ _ _ => consumes_unique) _ _ _ _ reached' reached
    exact accurate.bodiless taken ((counts before read after m split reached).2 next taken)

private def underBudget (bytes : Slice) (most : Nat) : Metered :=
  fresh bytes { DecoderLimits.default with maxBytes := some most } 0

/-- The cursor behind a tag, further on. -/
private def movedTo (m : Metered) (pos counted : Nat) (inside : pos ≤ m.reader.buf.length) : Metered :=
  ⟨{ m.reader with pos, fieldCount := 1, bytesRead := counted, pos_le := inside }, pos⟩

private def varintField : Slice := ⟨[0x08, 0x05], by decide⟩

/-- A field of two bytes is read under a budget of two. -/
theorem byte_budget_varint :
    Budgeted 2 (underBudget varintField 2) [.call .readTag, .call .readVarint] := by
  have first : Consumes (underBudget varintField 2) (.call .readTag)
      (movedTo (underBudget varintField 2) 1 1 (by decide)) := ⟨rfl, rfl⟩
  have second : Consumes (movedTo (underBudget varintField 2) 1 1 (by decide)) (.call .readVarint)
      (movedTo (underBudget varintField 2) 2 2 (by decide)) := ⟨rfl, rfl⟩
  have run : Trace Consumes (underBudget varintField 2) [.call .readTag, .call .readVarint]
      (movedTo (underBudget varintField 2) 2 2 (by decide)) := .cons first (.cons second (.nil _))
  refine (byte_budget_iff rfl run).1 fun before read after m split _ => ?_
  have member : read ∈ [Read.call .readTag, .call .readVarint] := by
    rw [split]
    exact List.mem_append_right _ List.mem_cons_self
  rcases List.mem_cons.mp member with rfl | member
  · exact ⟨trivial, trivial⟩
  · cases List.mem_singleton.mp member
    exact ⟨trivial, trivial⟩

/-- A map entry with a key of four bytes and no value. -/
private def entryField : Slice := ⟨[0x0a, 0x04, 0x61, 0x62, 0x63, 0x64], by decide⟩

private def rawReads : List Read := [.call .readTag, .call (.readRawValue .lengthDelimited)]

/-- Under a budget of three, six bytes are consumed, of which two are counted. -/
theorem not_byte_budget :
    (∃ m, Trace Consumes (underBudget entryField 3) rawReads m ∧ m.consumed = 6 ∧
      m.reader.bytesRead = 2) ∧
    ¬ Budgeted 3 (underBudget entryField 3) rawReads := by
  have first : Consumes (underBudget entryField 3) (.call .readTag)
      (movedTo (underBudget entryField 3) 1 1 (by decide)) := ⟨rfl, rfl⟩
  have second : Consumes (movedTo (underBudget entryField 3) 1 1 (by decide))
      (.call (.readRawValue .lengthDelimited)) (movedTo (underBudget entryField 3) 6 2 (by decide)) :=
    ⟨rfl, rfl⟩
  have run : Trace Consumes (underBudget entryField 3) rawReads
      (movedTo (underBudget entryField 3) 6 2 (by decide)) := .cons first (.cons second (.nil _))
  refine ⟨⟨_, run, rfl, rfl⟩, fun budgeted => ?_⟩
  have beyond := (budgeted rawReads [] _ rfl run).1
  exact absurd beyond (by decide)

end Runs

end TptProto.Core.Reader
