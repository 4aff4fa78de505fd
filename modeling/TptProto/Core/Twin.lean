import TptProto.Core.Unknown

/-! Cursors that see the same bytes ahead read alike, whatever lies behind them and whatever
their counters have counted: where both reads succeed, they return one value and the cursors
still see the same bytes. -/

namespace TptProto.Core.Reader

open TptProto.Foundation

section Together

/-- A relation between cursors that see the same bytes and that moving keeps. -/
structure Together (R : Reader → Reader → Prop) : Prop where
  rest : ∀ {r s : Reader}, R r s → r.rest = s.rest
  limits : ∀ {r s : Reader}, R r s → r.limits = s.limits
  depth : ∀ {r s : Reader}, R r s → r.depth = s.depth
  moved : ∀ {r s r' s' : Reader} {n tags : Nat}, R r s → Advanced r n tags r' →
    Advanced s n tags s' → R r' s'
  jumped : ∀ {r s : Reader} {n : Nat}, R r s →
    DecoderLimits.within r.limits.maxLengthDelimited n = true →
    Outcome.Related R (r.advance n) (s.advance n)

/-- The same value, and related cursors. -/
structure Matched (R : Reader → Reader → Prop) {α : Type} (a b : α × Reader) : Prop where
  value : a.1 = b.1
  cursors : R a.2 b.2

namespace Together

variable {R : Reader → Reader → Prop} {r s : Reader}

theorem remaining (together : Together R) (related : R r s) : r.remaining = s.remaining := by
  rw [← rest_length, ← rest_length, together.rest related]

theorem isEmpty (together : Together R) (related : R r s) : r.isEmpty = s.isEmpty :=
  Bool.eq_iff_iff.mpr (by rw [isEmpty_iff, isEmpty_iff, together.rest related])

private theorem decodeVarint (together : Together R) (related : R r s) :
    Core.decodeVarint r.buf.bytes r.pos = Core.decodeVarint s.buf.bytes s.pos :=
  congrArg (decodeVarintLoop · 0 0 0) (together.rest related)

theorem readVarint (together : Together R) (related : R r s) :
    Outcome.Related (Matched R) r.readVarint s.readVarint := by
  rintro ⟨value, r'⟩ ⟨value', s'⟩ read read'
  obtain ⟨n, decoded, _, moved⟩ := readVarint_eq_ok_iff.mp read
  obtain ⟨n', decoded', _, moved'⟩ := readVarint_eq_ok_iff.mp read'
  rw [← together.decodeVarint related, decoded] at decoded'
  cases decoded'
  exact ⟨rfl, together.moved related moved moved'⟩

theorem readTag (together : Together R) (related : R r s) :
    Outcome.Related (Matched R) r.readTag s.readTag := by
  rintro ⟨tag, r'⟩ ⟨tag', s'⟩ read read'
  obtain ⟨n, decoded, _, _, moved⟩ := readTag_eq_ok_iff.mp read
  obtain ⟨n', decoded', _, _, moved'⟩ := readTag_eq_ok_iff.mp read'
  rw [Tag.decode, ← together.decodeVarint related, ← Tag.decode, decoded] at decoded'
  cases decoded'
  exact ⟨rfl, together.moved related moved moved'⟩

theorem readLengthDelimited (together : Together R) (related : R r s) :
    Outcome.Related (Matched R) r.readLengthDelimited s.readLengthDelimited := by
  rintro ⟨body, r'⟩ ⟨body', s'⟩ read read'
  obtain ⟨len, n, decoded, _, _, _, bytes, _, moved⟩ := readLengthDelimited_eq_ok_iff.mp read
  obtain ⟨len', n', decoded', _, _, _, bytes', _, moved'⟩ := readLengthDelimited_eq_ok_iff.mp read'
  rw [← together.decodeVarint related, decoded] at decoded'
  cases decoded'
  refine ⟨Slice.ext ?_, together.moved related moved moved'⟩
  simp only [bytes, bytes', together.rest related]

theorem readFixed32 (together : Together R) (related : R r s) :
    Outcome.Related (Matched R) r.readFixed32 s.readFixed32 := by
  rintro ⟨value, r'⟩ ⟨value', s'⟩ read read'
  obtain ⟨_, word, _, moved⟩ := readFixed32_eq_ok_iff.mp read
  obtain ⟨_, word', _, moved'⟩ := readFixed32_eq_ok_iff.mp read'
  exact ⟨by simp only [word, word', together.rest related], together.moved related moved moved'⟩

theorem readFixed64 (together : Together R) (related : R r s) :
    Outcome.Related (Matched R) r.readFixed64 s.readFixed64 := by
  rintro ⟨value, r'⟩ ⟨value', s'⟩ read read'
  obtain ⟨_, word, _, moved⟩ := readFixed64_eq_ok_iff.mp read
  obtain ⟨_, word', _, moved'⟩ := readFixed64_eq_ok_iff.mp read'
  exact ⟨by simp only [word, word', together.rest related], together.moved related moved moved'⟩

theorem readAs {α β : Type} {read : Reader → Result (α × Reader)} {convert : α → β}
    (related : Outcome.Related (Matched R) (read r) (read s)) :
    Outcome.Related (Matched R) (readAs convert read r) (readAs convert read s) := by
  refine related.bind ?_
  rintro ⟨value, _⟩ ⟨_, _⟩ ⟨rfl, cursors⟩
  exact .ok ⟨rfl, cursors⟩

theorem readStringOwned (together : Together R) (related : R r s) :
    Outcome.Related (Matched R) r.readStringOwned s.readStringOwned := by
  refine (together.readLengthDelimited related).bind ?_
  rintro ⟨body, r'⟩ ⟨_, s'⟩ ⟨rfl, cursors⟩
  simp only
  rw [together.limits cursors]
  refine (Outcome.Related.same _).bind fun _ _ _ => (Outcome.Related.same _).bind ?_
  rintro text _ rfl
  exact .ok ⟨rfl, cursors⟩

private theorem skipGroupStep (together : Together R) {skipField : WireType → Reader → Result Reader}
    (fields : ∀ wireType r s, R r s →
      Outcome.Related R (skipField wireType r) (skipField wireType s))
    {a b : Reader × Bool} (both : R a.1 b.1 ∧ a.2 = b.2) :
    Outcome.Related (fun a b => R a.1 b.1 ∧ a.2 = b.2) (Reader.skipGroupStep skipField a)
      (Reader.skipGroupStep skipField b) := by
  simp only [Reader.skipGroupStep, together.isEmpty both.1]
  split
  · intro _ _ impossible
    cases impossible
  · refine (together.readTag both.1).bind ?_
    rintro ⟨tag, r'⟩ ⟨_, s'⟩ ⟨rfl, cursors⟩
    simp only
    split
    · exact .ok ⟨cursors, rfl⟩
    · exact (fields tag.wireType r' s' cursors).bind fun _ _ cursors => .ok ⟨cursors, rfl⟩

private theorem skipInner_plain (together : Together R) (related : R r s) {fuel : Nat}
    {wireType : WireType} {depth : UInt32} (plain : wireType ≠ .startGroup) :
    Outcome.Related R (Reader.skipInner fuel wireType depth r)
      (Reader.skipInner fuel wireType depth s) := by
  unfold Reader.skipInner
  cases wireType with
  | varint => exact (together.readVarint related).bind fun _ _ agreed => .ok agreed.cursors
  | fixed64 => exact (together.readFixed64 related).bind fun _ _ agreed => .ok agreed.cursors
  | fixed32 => exact (together.readFixed32 related).bind fun _ _ agreed => .ok agreed.cursors
  | lengthDelimited =>
    refine (together.readVarint related).bind ?_
    rintro ⟨value, r'⟩ ⟨_, s'⟩ ⟨rfl, cursors⟩
    intro last last' skipped skipped'
    simp only [Outcome.bind_eq_ok, DecoderLimits.checkLength, DecoderLimits.check_eq_ok]
      at skipped skipped'
    obtain ⟨_, admitted, jumped⟩ := skipped
    obtain ⟨_, _, jumped'⟩ := skipped'
    exact together.jumped cursors admitted _ _ jumped jumped'
  | startGroup => exact absurd rfl plain
  | endGroup =>
    intro _ _ impossible
    cases impossible

theorem skipInner (together : Together R) (related : R r s) (fuel : Nat) (wireType : WireType)
    (depth : UInt32) : Outcome.Related R (Reader.skipInner fuel wireType depth r)
      (Reader.skipInner fuel wireType depth s) := by
  induction fuel generalizing wireType depth r s with
  | zero =>
    by_cases group : wireType = .startGroup
    · subst group
      intro _ _ impossible
      cases impossible
    · exact together.skipInner_plain related group
  | succ fuel ih =>
    by_cases group : wireType = .startGroup
    · subst group
      simp only [Reader.skipInner]
      rw [together.limits related]
      split
      · intro _ _ impossible
        cases impossible
      · have step : ∀ a b : Reader × Bool, R a.1 b.1 ∧ a.2 = b.2 →
            Outcome.Related (fun a b => R a.1 b.1 ∧ a.2 = b.2)
              (Reader.skipGroupStep (fun wireType => Reader.skipInner fuel wireType (depth + 1)) a)
              (Reader.skipGroupStep (fun wireType => Reader.skipInner fuel wireType (depth + 1)) b) :=
          fun _ _ => together.skipGroupStep fun wireType _ _ related => ih related wireType (depth + 1)
        have start : R (r, true).1 (s, true).1 ∧ (r, true).2 = (s, true).2 := ⟨related, rfl⟩
        exact (loop_related (fun _ _ both => both.2) step start).bind fun _ _ both => .ok both.1
    · exact together.skipInner_plain related group

theorem skip (together : Together R) (related : R r s) (wireType : WireType) :
    Outcome.Related R (r.skip wireType) (s.skip wireType) := by
  rw [Reader.skip, Reader.skip, together.remaining related, together.depth related]
  exact together.skipInner related _ _ _

end Together

end Together

/-- Over one buffer at one position, under the same limits at the same depth. -/
structure Twin (r s : Reader) : Prop where
  buf : r.buf = s.buf
  pos : r.pos = s.pos
  limits : r.limits = s.limits
  depth : r.depth = s.depth

/-- The same value, and cursors at one place. -/
structure Agreed {α : Type} (a b : α × Reader) : Prop where
  value : a.1 = b.1
  twin : Twin a.2 b.2

variable {r s : Reader}

theorem Kept.twin {r s r' s' : Reader} (twin : Twin r s) (kept : Kept r r') (kept' : Kept s s')
    (pos : r'.pos = s'.pos) : Twin r' s' :=
  ⟨kept.buf.trans (twin.buf.trans kept'.buf.symm), pos,
    kept.limits.trans (twin.limits.trans kept'.limits.symm),
    kept.depth.trans (twin.depth.trans kept'.depth.symm)⟩

theorem Twin.advance (twin : Twin r s) (n : Nat) :
    Outcome.Related Twin (r.advance n) (s.advance n) := by
  intro r' s' moved moved'
  refine (advance_kept moved).twin twin (advance_kept moved') ?_
  unfold Reader.advance at moved moved'
  split at moved
  · split at moved'
    · simp only [Outcome.bind_eq_ok, Outcome.ok.injEq] at moved moved'
      obtain ⟨_, _, rfl⟩ := moved
      obtain ⟨_, _, rfl⟩ := moved'
      simp only [twin.pos]
    · cases moved'
  · cases moved

theorem twin_together : Together Twin where
  rest twin := by rw [Reader.rest, Reader.rest, twin.buf, twin.pos]
  limits := Twin.limits
  depth := Twin.depth
  moved twin moved moved' := moved.kept.twin twin moved'.kept (by rw [moved.pos, moved'.pos, twin.pos])
  jumped twin _ := twin.advance _

private theorem Matched.agreed {α : Type} {x y : Result (α × Reader)}
    (matched : Outcome.Related (Matched Twin) x y) : Outcome.Related Agreed x y :=
  fun _ _ first second => ⟨(matched _ _ first second).value, (matched _ _ first second).cursors⟩

theorem Twin.readVarint (twin : Twin r s) : Outcome.Related Agreed r.readVarint s.readVarint :=
  Matched.agreed (twin_together.readVarint twin)

theorem Twin.readTag (twin : Twin r s) : Outcome.Related Agreed r.readTag s.readTag :=
  Matched.agreed (twin_together.readTag twin)

theorem Twin.readLengthDelimited (twin : Twin r s) :
    Outcome.Related Agreed r.readLengthDelimited s.readLengthDelimited :=
  Matched.agreed (twin_together.readLengthDelimited twin)

theorem Twin.readFixed32 (twin : Twin r s) : Outcome.Related Agreed r.readFixed32 s.readFixed32 :=
  Matched.agreed (twin_together.readFixed32 twin)

theorem Twin.readFixed64 (twin : Twin r s) : Outcome.Related Agreed r.readFixed64 s.readFixed64 :=
  Matched.agreed (twin_together.readFixed64 twin)

theorem Twin.readAs {α β : Type} {read : Reader → Result (α × Reader)} {convert : α → β}
    (related : Outcome.Related Agreed (read r) (read s)) :
    Outcome.Related Agreed (readAs convert read r) (readAs convert read s) := by
  refine related.bind ?_
  rintro ⟨value, _⟩ ⟨_, _⟩ ⟨rfl, twin⟩
  exact .ok ⟨rfl, twin⟩

theorem Twin.readStringOwned (twin : Twin r s) :
    Outcome.Related Agreed r.readStringOwned s.readStringOwned :=
  Matched.agreed (twin_together.readStringOwned twin)

theorem Twin.skip (twin : Twin r s) (wireType : WireType) :
    Outcome.Related Twin (r.skip wireType) (s.skip wireType) := twin_together.skip twin wireType

/-- Before the same bytes, under the same bounded limits at the same depth. -/
structure Level (r s : Reader) : Prop where
  rest : r.rest = s.rest
  limits : r.limits = s.limits
  depth : r.depth = s.depth
  bounded : r.limits.Bounded

theorem level_together : Together Level where
  rest := Level.rest
  limits := Level.limits
  depth := Level.depth
  moved level moved moved' := by
    refine ⟨by rw [moved.rest_eq, moved'.rest_eq, level.rest], ?_, ?_, ?_⟩
    · rw [moved.limits, moved'.limits, level.limits]
    · rw [moved.depth, moved'.depth, level.depth]
    · rw [moved.limits]
      exact level.bounded
  jumped {r s n} level admitted := by
    have small := level.bounded n admitted
    have here := r.pos_lt
    have there := s.pos_lt
    intro r' s' jumped jumped'
    obtain ⟨_, _, moved⟩ := (advance_eq_ok_iff (by omega)).mp jumped
    obtain ⟨_, _, moved'⟩ := (advance_eq_ok_iff (by omega)).mp jumped'
    refine ⟨by rw [moved.rest_eq, moved'.rest_eq, level.rest], ?_, ?_, ?_⟩
    · rw [moved.limits, moved'.limits, level.limits]
    · rw [moved.depth, moved'.depth, level.depth]
    · rw [moved.limits]
      exact level.bounded

end TptProto.Core.Reader
