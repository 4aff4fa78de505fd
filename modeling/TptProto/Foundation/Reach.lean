import TptProto.Foundation.Loop

/-! Programs over a state of which they only consume: the calls they make, and that they return
unless one of these calls is stuck. -/

namespace TptProto.Foundation

/-- What programs leave alone of a state, and how much of it they have still to consume. -/
structure Frame (σ : Type) where
  left : σ → Nat
  keeps : σ → σ → Prop
  refl : ∀ s, keeps s s
  trans : ∀ {s t u}, keeps s t → keeps t u → keeps s u

variable {ε σ α β γ : Type}

/-- No call is made. -/
def Silent : σ → γ → Prop := fun _ _ => False

/-- The calls that are made once a program is through. -/
def After (program : StateT σ (Outcome ε) α) (next : α → σ → γ → Prop) : σ → γ → Prop :=
  fun s call => ∃ a t, program s = .ok (a, t) ∧ next a t call

/-- The calls of a program and those that are made once it is through. -/
def Then (calls : σ → γ → Prop) (program : StateT σ (Outcome ε) α) (next : α → σ → γ → Prop) :
    σ → γ → Prop :=
  fun s call => calls s call ∨ After program next s call

/-- The calls that are made with a value, if there is one. -/
def OnSome (next : α → σ → γ → Prop) : Option α → σ → γ → Prop
  | some a => next a
  | none => Silent

/-- The calls of a loop are those of its passes. -/
def During (more : α → σ → Bool) (body : α → StateT σ (Outcome ε) α) (calls : α → σ → γ → Prop)
    (acc : α) : σ → γ → Prop :=
  fun s call => ∃ acc' t, Visits (fun s : α × σ => more s.1 s.2) (fun s => body s.1 s.2) (acc, s)
    (acc', t) ∧ calls acc' t call

variable (frame : Frame σ) (Stuck : γ → Prop)

/-- Started in a state, the program returns if and only if it makes no stuck call, and then it has
consumed at least `n`. -/
structure Traced (program : StateT σ (Outcome ε) α) (calls : σ → γ → Prop) (n : Nat) (s : σ) :
    Prop where
  returns : (program s).Returns ↔ ∀ call, calls s call → ¬ Stuck call
  consumes : ∀ a t, program s = .ok (a, t) → frame.keeps s t ∧ frame.left t + n ≤ frame.left s

variable {frame Stuck} {program : StateT σ (Outcome ε) α} {rest : α → StateT σ (Outcome ε) β}
  {calls : σ → γ → Prop} {next : α → σ → γ → Prop} {n k : Nat} {s : σ}

namespace Traced

theorem weaken (traced : Traced frame Stuck program calls n s) (fewer : k ≤ n) :
    Traced frame Stuck program calls k s := by
  refine ⟨traced.returns, fun a t ran => ?_⟩
  obtain ⟨keeps, consumed⟩ := traced.consumes a t ran
  exact ⟨keeps, by omega⟩

theorem same {other : σ → γ → Prop} (traced : Traced frame Stuck program calls n s)
    (equal : ∀ call, calls s call ↔ other s call) : Traced frame Stuck program other n s := by
  refine ⟨traced.returns.trans ?_, traced.consumes⟩
  simp only [equal]

theorem run {other : StateT σ (Outcome ε) α} (traced : Traced frame Stuck program calls n s)
    (equal : other s = program s) : Traced frame Stuck other calls n s :=
  ⟨by rw [equal]; exact traced.returns, fun a t ran => traced.consumes a t (equal.symm.trans ran)⟩

/-- A program that returns makes no call. -/
theorem silent {a : α} {t : σ} (ran : program s = .ok (a, t)) (keeps : frame.keeps s t)
    (consumed : frame.left t + n ≤ frame.left s) :
    Traced frame Stuck program (Silent : σ → γ → Prop) n s := by
  refine ⟨?_, fun b u ran' => ?_⟩
  · rw [ran]
    exact iff_of_true trivial fun _ => False.elim
  · cases ran.symm.trans ran'
    exact ⟨keeps, consumed⟩

theorem pure (a : α) : Traced frame Stuck (Pure.pure a : StateT σ (Outcome ε) α)
    (Silent : σ → γ → Prop) 0 s :=
  silent rfl (frame.refl s) (Nat.le_refl _)

/-- In a sequence, the calls of the first part come before those of the second. -/
theorem both (head : Traced frame Stuck program calls n s)
    (tail : ∀ a t, program s = .ok (a, t) → Traced frame Stuck (rest a) (next a) k t) :
    Traced frame Stuck (program >>= rest) (Then calls program next) (k + n) s := by
  have run : (program >>= rest) s = program s >>= fun r => rest r.1 r.2 := rfl
  constructor
  · rw [run, Outcome.returns_bind_iff, head.returns]
    constructor
    · rintro ⟨quiet, later⟩ call (here | ⟨a, t, ran, there⟩)
      · exact quiet call here
      · exact (tail a t ran).returns.mp (later (a, t) ran) call there
    · intro quiet
      refine ⟨fun call here => quiet call (.inl here), fun ⟨a, t⟩ ran => ?_⟩
      exact (tail a t ran).returns.mpr fun call there => quiet call (.inr ⟨a, t, ran, there⟩)
  · intro b u ran
    rw [run, Outcome.bind_eq_ok] at ran
    obtain ⟨⟨a, t⟩, first, second⟩ := ran
    obtain ⟨keeps, consumed⟩ := head.consumes a t first
    obtain ⟨keeps', consumed'⟩ := (tail a t first).consumes b u second
    exact ⟨frame.trans keeps keeps', by omega⟩

/-- A part without calls comes first. -/
theorem bind (head : Traced frame Stuck program Silent n s)
    (tail : ∀ a t, program s = .ok (a, t) → Traced frame Stuck (rest a) (next a) k t) :
    Traced frame Stuck (program >>= rest) (After program next) (k + n) s :=
  (head.both tail).same fun _ => or_iff_right id

/-- A first part whose result is known. -/
theorem through {a : α} {t : σ} (ran : program s = .ok (a, t)) (keeps : frame.keeps s t)
    (consumed : frame.left t + n ≤ frame.left s) (tail : Traced frame Stuck (rest a) (next a) k t) :
    Traced frame Stuck (program >>= rest) (After program next) (k + n) s :=
  (silent ran keeps consumed).bind fun _ _ ran' => by
    cases ran.symm.trans ran'
    exact tail

/-- A part without calls comes last. -/
theorem andThen (head : Traced frame Stuck program calls n s)
    (tail : ∀ a t, program s = .ok (a, t) → Traced frame Stuck (rest a) (Silent : σ → γ → Prop) k t) :
    Traced frame Stuck (program >>= rest) calls (k + n) s :=
  (head.both tail).same fun _ => or_iff_left fun ⟨_, _, _, never⟩ => never

theorem pureBind {a : α} (traced : Traced frame Stuck (rest a) calls n s) :
    Traced frame Stuck (Pure.pure a >>= rest) calls n s := traced

theorem ite {c : Prop} [Decidable c] {other : StateT σ (Outcome ε) α} {others : σ → γ → Prop}
    (yes : c → Traced frame Stuck program calls n s)
    (no : ¬ c → Traced frame Stuck other others n s) :
    Traced frame Stuck (if c then program else other) (if c then calls else others) n s := by
  split
  · exact yes ‹_›
  · exact no ‹_›

end Traced

section Loops

variable {more : α → σ → Bool} {body : α → StateT σ (Outcome ε) α} {passes : α → σ → γ → Prop}
  {fuel : Nat} {acc : α}

private def size (frame : Frame σ) (more : α → σ → Bool) (s : α × σ) : Nat :=
  if more s.1 s.2 = true then frame.left s.2 + 1 else 0

/-- A loop whose passes consume something or end it, or halt it for good with a stuck call. -/
theorem Traced.loop (Halts : α → σ → Prop) (enough : frame.left s < fuel)
    (pass : ∀ acc t, frame.keeps s t → frame.left t ≤ frame.left s → more acc t = true →
      ¬ Halts acc t → Traced frame Stuck (body acc) (passes acc) 0 t ∧
        ∀ acc' t', body acc t = .ok (acc', t') → more acc' t' = false ∨ frame.left t' < frame.left t)
    (halted : ∀ acc t, Halts acc t → more acc t = true ∧ (∃ call, passes acc t call ∧ Stuck call) ∧
      ∃ acc' t', body acc t = .ok (acc', t') ∧ Halts acc' t' ∧ frame.keeps t t' ∧
        frame.left t' ≤ frame.left t) :
    Traced frame Stuck
      (fun s => Foundation.loop (fun s : α × σ => more s.1 s.2) (fun s => body s.1 s.2) fuel (acc, s))
      (During more body passes acc) 0 s := by
  have keep : ∀ q q' : α × σ, frame.keeps s q.2 ∧ frame.left q.2 ≤ frame.left s →
      more q.1 q.2 = true → body q.1 q.2 = .ok q' →
      frame.keeps s q'.2 ∧ frame.left q'.2 ≤ frame.left s := by
    rintro ⟨acc, t⟩ ⟨acc', t'⟩ ⟨keeps, below⟩ continues moved
    by_cases halts : Halts acc t
    · obtain ⟨_, _, _, _, moved', _, keeps', below'⟩ := halted acc t halts
      cases moved.symm.trans moved'
      exact ⟨frame.trans keeps keeps', Nat.le_trans below' below⟩
    · obtain ⟨keeps', below'⟩ := (pass acc t keeps below continues halts).1.consumes acc' t' moved
      exact ⟨frame.trans keeps keeps', Nat.le_trans below' below⟩
  have start : frame.keeps s s ∧ frame.left s ≤ frame.left s := ⟨frame.refl s, Nat.le_refl _⟩
  constructor
  · refine Iff.trans (@loop_returns_iff_unhalted ε (α × σ) (fun q => more q.1 q.2)
      (fun q => body q.1 q.2) (acc, s) (fun q => frame.keeps s q.2 ∧ frame.left q.2 ≤ frame.left s)
      (fun q => Halts q.1 q.2) (size frame more) ?_ keep ?_ ?_ fuel start ?_) ?_
    · rintro ⟨acc, t⟩ _ continues
      simp [size, continues]
    · rintro ⟨acc, t⟩ ⟨acc', t'⟩ ⟨keeps, below⟩ continues unhalted moved
      rcases (pass acc t keeps below continues unhalted).2 acc' t' moved with ended | lower
      · simp [size, continues, ended]
      · simp only [size, continues, ↓reduceIte]
        split <;> omega
    · rintro ⟨acc, t⟩ halts
      obtain ⟨continues, _, acc', t', moved, halts', _⟩ := halted acc t halts
      exact ⟨continues, (acc', t'), moved, halts'⟩
    · dsimp only [size]
      split <;> omega
    · constructor
      · rintro returns call ⟨acc', t, visits, there⟩
        obtain ⟨unhalted, returned⟩ := returns (acc', t) visits
        obtain ⟨⟨keeps, below⟩, continues⟩ := visits.invariant _ start keep
        exact (pass acc' t keeps below continues unhalted).1.returns.mp returned call there
      · rintro quiet ⟨acc', t⟩ visits
        obtain ⟨⟨keeps, below⟩, continues⟩ := visits.invariant _ start keep
        by_cases halts : Halts acc' t
        · obtain ⟨_, ⟨call, there, stuck⟩, _⟩ := halted acc' t halts
          exact (quiet call ⟨acc', t, visits, there⟩ stuck).elim
        · refine ⟨halts, (pass acc' t keeps below continues halts).1.returns.mpr fun call there => ?_⟩
          exact quiet call ⟨acc', t, visits, there⟩
  · intro acc' t ran
    exact (loop_invariant ran _ start keep).1

/-- Every pass consumes something or ends the loop. -/
theorem Traced.progressing (enough : frame.left s < fuel)
    (pass : ∀ acc t, frame.keeps s t → frame.left t ≤ frame.left s → more acc t = true →
      Traced frame Stuck (body acc) (passes acc) 0 t ∧
        ∀ acc' t', body acc t = .ok (acc', t') → more acc' t' = false ∨ frame.left t' < frame.left t) :
    Traced frame Stuck
      (fun s => Foundation.loop (fun s : α × σ => more s.1 s.2) (fun s => body s.1 s.2) fuel (acc, s))
      (During more body passes acc) 0 s :=
  .loop (fun _ _ => False) enough (fun acc t keeps below continues _ => pass acc t keeps below continues)
    fun _ _ => False.elim

end Loops

end TptProto.Foundation
