import TptProto.Codegen.MergeSpec
import TptProto.Core.MapEntry

/-! The recursion of the emitted `merge_from`: its budget never matters. -/

namespace TptProto.Codegen

open TptProto.Foundation TptProto.Core TptProto.Descriptor

theorem decValueExpr_congr {recurse recurse' : Merge} {schema : Schema} {ty : TyRef} {r : Reader}
    (same : ∀ fqn msg sub, sub.buf.length < r.buf.length → recurse fqn msg sub = recurse' fqn msg sub) :
    decValueExpr recurse schema ty r = decValueExpr recurse' schema ty r := by
  cases ty with
  | message fqn =>
    simp only [decValueExpr]
    refine Outcome.bind_congr fun pair readBody => Outcome.bind_congr fun sub opened => ?_
    obtain ⟨_, rfl⟩ := Reader.nested_eq_ok_iff.mp opened
    rw [same _ _ _ (Reader.readLengthDelimited_shorter readBody)]
  | enum fqn => rfl
  | scalar t => cases t <;> rfl

theorem Arm.run_congr {recurse recurse' : Merge} {schema : Schema} {number : UInt32} {wire : WireType}
    {arm : Arm} {msg : Struct} {r : Reader}
    (same : ∀ fqn msg sub, sub.buf.length < r.buf.length → recurse fqn msg sub = recurse' fqn msg sub) :
    arm.run recurse schema number wire msg r = arm.run recurse' schema number wire msg r := by
  cases arm with
  | assign ty | assignSome ty | push ty | oneof index ty =>
    simp only [Arm.run, decValueExpr_congr same]
  | byWireType code ty => simp only [Arm.run, decValueExpr_congr same]
  | nothing => rfl
  | replace fqn | mergeInto fqn =>
    simp only [Arm.run]
    refine Outcome.bind_congr fun pair readBody => Outcome.bind_congr fun sub opened => ?_
    obtain ⟨_, rfl⟩ := Reader.nested_eq_ok_iff.mp opened
    rw [same _ _ _ (Reader.readLengthDelimited_shorter readBody)]
  | insertEntry k v =>
    simp only [Arm.run]
    refine Outcome.bind_congr fun pair readFrames => ?_
    obtain ⟨⟨rawKey, rawValue⟩, after⟩ := pair
    obtain ⟨shortKey, shortValue⟩ := Reader.decodeMapEntryFrames_shorter readFrames
    have inner : ∀ {raw : Slice} {reader : Reader}, raw.length < r.buf.length →
        after.nested raw = .ok reader → ∀ ty : TyRef,
        decValueExpr recurse schema ty reader = decValueExpr recurse' schema ty reader := by
      intro raw reader short opened ty
      obtain ⟨_, rfl⟩ := Reader.nested_eq_ok_iff.mp opened
      exact decValueExpr_congr fun fqn msg sub shorter =>
        same fqn msg sub (Nat.lt_trans shorter short)
    refine Outcome.bind_congr fun keyReader opened => ?_
    rw [inner shortKey opened k]
    refine Outcome.bind_congr fun key _ => Outcome.bind_congr fun valueReader opened' => ?_
    rw [inner shortValue opened' v]

private theorem decValueExpr_kept {recurse : Merge} {schema : Schema} {ty : TyRef} {r r' : Reader}
    {value : GenValue} (read : decValueExpr recurse schema ty r = .ok (value, r')) :
    Reader.Kept r r' := by
  by_cases plain : ty.Plain
  · rw [decValueExpr_eq plain] at read
    simp only [Outcome.bind_eq_ok, Prod.exists, Outcome.ok.injEq, Prod.mk.injEq] at read
    obtain ⟨_, _, source, _, _, _, rfl⟩ := read
    exact readUnknownValue_kept source
  · cases ty with
    | message fqn | enum fqn => exact absurd (by simp [TyRef.Plain]) plain
    | scalar t =>
      cases t <;> first | exact absurd (by decide) plain | (simp [decValueExpr, Reader.readAs, readPrim] at read)

private theorem Arm.run_kept {recurse : Merge} {schema : Schema} {number : UInt32} {wire : WireType}
    {arm : Arm} {msg msg' : Struct} {r r' : Reader}
    (ran : arm.run recurse schema number wire msg r = .ok (msg', r')) : Reader.Kept r r' := by
  cases arm with
  | assign ty | assignSome ty | push ty | oneof index ty =>
    simp only [Arm.run, Outcome.bind_eq_ok, Prod.exists, Outcome.ok.injEq, Prod.mk.injEq] at ran
    obtain ⟨_, _, read, _, rfl⟩ := ran
    exact decValueExpr_kept read
  | byWireType code ty =>
    simp only [Arm.run] at ran
    split at ran
    · simp only [PackedDecode.run_eq, Outcome.bind_eq_ok, Prod.exists, Outcome.ok.injEq,
        Prod.mk.injEq] at ran
      obtain ⟨_, _, ⟨_, _, read, _, _, _, rfl⟩, _, rfl⟩ := ran
      exact readUnknownValue_kept read
    · simp only [Outcome.bind_eq_ok, Prod.exists, Outcome.ok.injEq, Prod.mk.injEq] at ran
      obtain ⟨_, _, read, _, rfl⟩ := ran
      exact decValueExpr_kept read
  | nothing =>
    cases ran
    exact Reader.Kept.refl _
  | replace fqn | mergeInto fqn =>
    simp only [Arm.run, Outcome.bind_eq_ok, Prod.exists, Outcome.ok.injEq, Prod.mk.injEq] at ran
    obtain ⟨_, _, read, _, _, _, _, _, rfl⟩ := ran
    exact Reader.readLengthDelimited_kept read
  | insertEntry k v =>
    simp only [Arm.run, Reader.decodeMapEntryFrames, Outcome.bind_eq_ok, Prod.exists,
      Outcome.ok.injEq, Prod.mk.injEq] at ran
    obtain ⟨_, _, _, ⟨_, _, read, _, _, _, _, _, _, _, _, _, rfl⟩, _, _, _, _, _, _, _, _, _, _, _, rfl⟩ := ran
    exact Reader.readLengthDelimited_kept read

theorem mergeStep_kept {recurse : Merge} {schema : Schema} {arms : List (UInt32 × Arm)}
    {state next : Struct × Reader} (moved : mergeStep recurse schema arms state = .ok next) :
    Reader.Kept state.2 next.2 := by
  simp only [mergeStep, Outcome.bind_eq_ok, Prod.exists] at moved
  obtain ⟨tag, after, readTag, moved⟩ := moved
  refine (Reader.readTag_kept readTag).trans ?_
  split at moved
  · exact Arm.run_kept moved
  · simp only [stored_eq, Outcome.bind_eq_ok, Prod.exists, Outcome.ok.injEq, Prod.mk.injEq] at moved
    obtain ⟨_, _, ⟨_, _, read, _, _, _, rfl⟩, rfl⟩ := moved
    exact readUnknownValue_kept read

theorem mergeWith_congr {recurse recurse' : Merge} {schema : Schema} {fqn : String} {msg : Struct}
    {r : Reader}
    (same : ∀ fqn msg sub, sub.buf.length < r.buf.length → recurse fqn msg sub = recurse' fqn msg sub) :
    mergeWith recurse schema fqn msg r = mergeWith recurse' schema fqn msg r := by
  have looped : r.drain (mergeStep recurse schema (genArms schema (schema.messageOf fqn))) msg =
      r.drain (mergeStep recurse' schema (genArms schema (schema.messageOf fqn))) msg := by
    refine loop_congr (fun state => state.2.buf = r.buf) (fun state held _ => ?_)
      (fun state next held _ moved => (mergeStep_kept moved).buf.trans held) rfl
    obtain ⟨msg, reader⟩ := state
    simp only [mergeStep]
    refine Outcome.bind_congr fun pair readTag => ?_
    have kept := (Reader.readTag_kept readTag).buf.trans held
    cases SortedMap.get? (genArms schema (schema.messageOf fqn)) pair.1.fieldNumber with
    | some arm => exact Arm.run_congr fun fqn msg sub shorter => same fqn msg sub (by rwa [← kept])
    | none => rfl
  simp only [mergeWith, looped]

/-- Any budget above the buffer's length merges alike. -/
theorem mergeNested_eq {schema : Schema} {fqn : String} {msg : Struct} {r : Reader} {fuel fuel' : Nat}
    (enough : r.buf.length < fuel) (enough' : r.buf.length < fuel') :
    mergeNested schema fuel fqn msg r = mergeNested schema fuel' fqn msg r := by
  induction fuel generalizing fqn msg r fuel' with
  | zero => omega
  | succ fuel ih =>
    cases fuel' with
    | zero => omega
    | succ fuel' => exact mergeWith_congr fun _ _ _ shorter => ih (by omega) (by omega)

/-- The emitted `merge_from` calls itself. -/
theorem GenMsg.mergeFrom_eq (schema : Schema) (fqn : String) (msg : Struct) (r : Reader) :
    GenMsg.mergeFrom schema fqn msg r = mergeWith (GenMsg.mergeFrom schema) schema fqn msg r :=
  mergeWith_congr fun _ _ _ shorter => mergeNested_eq shorter (Nat.lt_succ_self _)

end TptProto.Codegen
