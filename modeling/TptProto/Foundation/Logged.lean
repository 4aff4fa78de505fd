import TptProto.Foundation.Outcome

/-! Programs that keep a log, which is there also when they fail. -/

namespace TptProto.Foundation

universe u v w

structure Logged (ε : Type u) (κ : Type w) (α : Type v) where
  outcome : Outcome ε α
  log : List κ := []

namespace Logged

variable {ε : Type u} {κ : Type w} {α β : Type v}

protected def bind (x : Logged ε κ α) (f : α → Logged ε κ β) : Logged ε κ β :=
  match x.outcome with
  | .ok value => ⟨(f value).outcome, x.log ++ (f value).log⟩
  | .err error => ⟨.err error, x.log⟩
  | .panic => ⟨.panic, x.log⟩
  | .outOfFuel => ⟨.outOfFuel, x.log⟩

instance : Monad (Logged ε κ) where
  pure value := ⟨.ok value, []⟩
  bind := Logged.bind

/-- Do what a program without a log does. -/
def lift (x : Outcome ε α) : Logged ε κ α := ⟨x, []⟩

/-- Write to the log, and go on. -/
def writing (entry : κ) (x : Logged ε κ α) : Logged ε κ α := ⟨x.outcome, entry :: x.log⟩

@[simp] theorem pure_outcome (value : α) : (pure value : Logged ε κ α).outcome = .ok value := rfl

@[simp] theorem lift_outcome (x : Outcome ε α) : (lift x : Logged ε κ α).outcome = x := rfl

@[simp] theorem lift_ok_bind (value : α) (f : α → Logged ε κ β) : (lift (.ok value) >>= f) = f value :=
  rfl

@[simp] theorem writing_outcome (entry : κ) (x : Logged ε κ α) :
    (writing entry x).outcome = x.outcome := rfl

/-- Without the log, a sequence is the sequence of its parts without their logs. -/
@[simp] theorem bind_outcome (x : Logged ε κ α) (f : α → Logged ε κ β) :
    (x >>= f).outcome = x.outcome >>= fun value => (f value).outcome := by
  change (Logged.bind x f).outcome = _
  unfold Logged.bind
  cases x.outcome <;> rfl

theorem bind_log {x : Logged ε κ α} {value : α} (done : x.outcome = .ok value)
    (f : α → Logged ε κ β) : (x >>= f).log = x.log ++ (f value).log := by
  change (Logged.bind x f).log = _
  rw [Logged.bind, done]

theorem bind_log_fails {x : Logged ε κ α} (fails : ∀ value, x.outcome ≠ .ok value)
    (f : α → Logged ε κ β) : (x >>= f).log = x.log := by
  change (Logged.bind x f).log = _
  unfold Logged.bind
  cases found : x.outcome with
  | ok value => exact absurd found (fails value)
  | err | panic | outOfFuel => rfl

@[simp] theorem bind_pure_log (x : Logged ε κ α) (g : α → β) :
    (x >>= fun value => pure (g value)).log = x.log := by
  change (Logged.bind x _).log = _
  unfold Logged.bind
  cases x.outcome with
  | ok value => exact List.append_nil _
  | err | panic | outOfFuel => rfl

theorem mem_bind_log {x : Logged ε κ α} {f : α → Logged ε κ β} {entry : κ}
    (member : entry ∈ (x >>= f).log) :
    entry ∈ x.log ∨ ∃ value, x.outcome = .ok value ∧ entry ∈ (f value).log := by
  by_cases done : ∃ value, x.outcome = .ok value
  · obtain ⟨value, done⟩ := done
    rw [bind_log done, List.mem_append] at member
    exact member.imp id fun later => ⟨value, done, later⟩
  · rw [bind_log_fails fun value found => done ⟨value, found⟩] at member
    exact .inl member

/-- What a fold logs, one of its steps logs. -/
theorem mem_foldlM_log {step : β → α → Logged ε κ β} {items : List α} {state : β} {entry : κ}
    (member : entry ∈ (items.foldlM step state).log) :
    ∃ state', ∃ item ∈ items, entry ∈ (step state' item).log := by
  induction items generalizing state with
  | nil => cases member
  | cons item rest ih =>
    rw [List.foldlM_cons] at member
    rcases mem_bind_log member with here | ⟨next, _, later⟩
    · exact ⟨state, item, List.mem_cons_self, here⟩
    · obtain ⟨state', item', inside, logged⟩ := ih later
      exact ⟨state', item', List.mem_cons_of_mem _ inside, logged⟩

theorem foldlM_outcome (step : β → α → Logged ε κ β) (items : List α) (state : β) :
    (items.foldlM step state).outcome =
      items.foldlM (fun state item => (step state item).outcome) state := by
  induction items generalizing state with
  | nil => rfl
  | cons item rest ih =>
    rw [List.foldlM_cons, List.foldlM_cons, bind_outcome]
    congr 1
    funext next
    exact ih next

section Once

variable {σ : Type v} {ν : Type w}

/-- The keys that a program logs are distinct and new, and the state that it leaves knows them. -/
structure Once (key : κ → ν) (seen : σ → List ν) (s : σ) (x : Logged ε κ σ) : Prop where
  distinct : (x.log.map key).Nodup
  fresh : ∀ k ∈ x.log.map key, k ∉ seen s
  known : ∀ t, x.outcome = .ok t → ∀ k, k ∈ seen s ∨ k ∈ x.log.map key → k ∈ seen t

variable {key : κ → ν} {seen : σ → List ν} {s : σ} {x : Logged ε κ σ}

namespace Once

/-- A program that logs nothing and keeps what is known. -/
theorem silent (nothing : x.log = []) (keeps : ∀ t, x.outcome = .ok t → ∀ k ∈ seen s, k ∈ seen t) :
    Once key seen s x := by
  refine ⟨?_, ?_, fun t done k member => ?_⟩
  · rw [nothing]
    exact List.nodup_nil
  · simp [nothing]
  · apply keeps t done
    simpa [nothing] using member

theorem pure (s : σ) : Once key seen s (Pure.pure s : Logged ε κ σ) := by
  apply silent rfl
  intro t done k member
  cases done
  exact member

/-- A program that first logs a new key and marks it. -/
theorem writing {entry : κ} (s' : σ) (fresh : key entry ∉ seen s)
    (marks : ∀ k, k ∈ seen s' ↔ k = key entry ∨ k ∈ seen s) (rest : Once key seen s' x) :
    Once key seen s (writing entry x) := by
  have logged : (Logged.writing entry x).log.map key = key entry :: x.log.map key := rfl
  refine ⟨?_, fun k member => ?_, fun t done k member => ?_⟩
  · rw [logged, List.nodup_cons]
    exact ⟨fun again => rest.fresh _ again ((marks _).mpr (.inl rfl)), rest.distinct⟩
  · rw [logged] at member
    rcases List.mem_cons.mp member with rfl | later
    · exact fresh
    · exact fun before => rest.fresh k later ((marks k).mpr (.inr before))
  · rw [logged, List.mem_cons] at member
    apply rest.known t done k
    rcases member with before | here | later
    · exact .inl ((marks k).mpr (.inr before))
    · exact .inl ((marks k).mpr (.inl here))
    · exact .inr later

/-- What one program logs, another that starts where it ends does not. -/
theorem bind {f : σ → Logged ε κ σ} (first : Once key seen s x)
    (second : ∀ t, x.outcome = .ok t → Once key seen t (f t)) : Once key seen s (x >>= f) := by
  cases found : x.outcome with
  | ok t =>
    have later := second t found
    have logged := bind_log found f
    refine ⟨?_, ?_, fun u done k member => ?_⟩
    · rw [logged, List.map_append, List.nodup_append]
      refine ⟨first.distinct, later.distinct, fun a early b late same => ?_⟩
      subst same
      exact later.fresh a late (first.known t found a (.inr early))
    · intro k member
      rw [logged, List.map_append, List.mem_append] at member
      rcases member with early | late
      · exact first.fresh k early
      · intro before
        exact later.fresh k late (first.known t found k (.inl before))
    · rw [bind_outcome, found] at done
      rw [logged, List.map_append, List.mem_append] at member
      apply later.known u done k
      rcases member with before | early | late
      · exact .inl (first.known t found k (.inl before))
      · exact .inl (first.known t found k (.inr early))
      · exact .inr late
  | err | panic | outOfFuel =>
    have logged := bind_log_fails (x := x) (by simp [found]) f
    refine ⟨?_, ?_, fun u done => ?_⟩
    · rw [logged]
      exact first.distinct
    · rw [logged]
      exact first.fresh
    · rw [bind_outcome, found] at done
      cases done

/-- A fold of programs that log new keys only. -/
theorem foldlM {step : σ → α → Logged ε κ σ} (each : ∀ s item, Once key seen s (step s item))
    (items : List α) (s : σ) : Once key seen s (items.foldlM step s) := by
  induction items generalizing s with
  | nil => exact pure s
  | cons item rest ih =>
    rw [List.foldlM_cons]
    exact (each s item).bind fun t _ => ih t

end Once

end Once

end Logged

end TptProto.Foundation
