/-! Results of fallible programs: a value, an error, a panic, or an exhausted
step budget. The last case is the bottom of the approximation order. -/

namespace TptProto.Foundation

universe u v w

inductive Outcome (ε : Type u) (α : Type v) where
  | ok (value : α)
  | err (error : ε)
  | panic
  | outOfFuel
  deriving DecidableEq, Repr

namespace Outcome

variable {ε : Type u} {ε' : Type u} {α β γ : Type v}

protected def bind (x : Outcome ε α) (f : α → Outcome ε β) : Outcome ε β :=
  match x with
  | ok value => f value
  | err error => err error
  | panic => panic
  | outOfFuel => outOfFuel

instance : Monad (Outcome ε) where
  pure := ok
  bind := Outcome.bind

@[simp] theorem pure_eq (value : α) : (pure value : Outcome ε α) = ok value := rfl

@[simp] theorem ok_bind (value : α) (f : α → Outcome ε β) : (ok value >>= f) = f value := rfl

@[simp] theorem err_bind (error : ε) (f : α → Outcome ε β) :
    ((err error : Outcome ε α) >>= f) = err error := rfl

@[simp] theorem panic_bind (f : α → Outcome ε β) :
    ((panic : Outcome ε α) >>= f) = panic := rfl

@[simp] theorem outOfFuel_bind (f : α → Outcome ε β) :
    ((outOfFuel : Outcome ε α) >>= f) = outOfFuel := rfl

instance : LawfulMonad (Outcome ε) := .mk' (Outcome ε)
  (by intro α x; cases x <;> rfl) (by intros; rfl) (by intro α β γ x f g; cases x <;> rfl)

/-- A sequenced computation succeeds exactly when both parts do. -/
theorem bind_eq_ok {x : Outcome ε α} {f : α → Outcome ε β} {result : β} :
    (x >>= f) = ok result ↔ ∃ value, x = ok value ∧ f value = ok result := by
  cases x <;> simp

theorem bind_eq_outOfFuel {x : Outcome ε α} {f : α → Outcome ε β} :
    (x >>= f) = outOfFuel ↔ x = outOfFuel ∨ ∃ value, x = ok value ∧ f value = outOfFuel := by
  cases x <;> simp

theorem bind_congr {x : Outcome ε α} {f g : α → Outcome ε β}
    (same : ∀ value, x = ok value → f value = g value) : (x >>= f) = (x >>= g) := by
  cases x with
  | ok value => exact same value rfl
  | err | panic | outOfFuel => rfl

/-- Convert the error of a failed computation, as `?` does through `From`. -/
def mapErr (convert : ε → ε') : Outcome ε α → Outcome ε' α
  | ok value => ok value
  | err error => err (convert error)
  | panic => panic
  | outOfFuel => outOfFuel

@[simp] theorem mapErr_ok (convert : ε → ε') (value : α) :
    mapErr convert (ok value) = ok value := rfl

@[simp] theorem mapErr_err (convert : ε → ε') (error : ε) :
    mapErr convert (err error : Outcome ε α) = err (convert error) := rfl

@[simp] theorem mapErr_panic (convert : ε → ε') :
    mapErr convert (panic : Outcome ε α) = panic := rfl

@[simp] theorem mapErr_outOfFuel (convert : ε → ε') :
    mapErr convert (outOfFuel : Outcome ε α) = outOfFuel := rfl

@[simp] theorem mapErr_id (x : Outcome ε α) : mapErr id x = x := by
  cases x <;> rfl

@[simp] theorem mapErr_eq_ok {convert : ε → ε'} {x : Outcome ε α} {value : α} :
    mapErr convert x = ok value ↔ x = ok value := by
  cases x <;> simp

@[simp] theorem mapErr_eq_outOfFuel {convert : ε → ε'} {x : Outcome ε α} :
    mapErr convert x = outOfFuel ↔ x = outOfFuel := by
  cases x <;> simp

@[simp] theorem mapErr_eq_panic {convert : ε → ε'} {x : Outcome ε α} :
    mapErr convert x = panic ↔ x = panic := by
  cases x <;> simp

/-- Apply a function to the value of a computation that succeeded. -/
protected def map (f : α → β) : Outcome ε α → Outcome ε β
  | ok value => ok (f value)
  | err error => err error
  | panic => panic
  | outOfFuel => outOfFuel

@[simp] theorem map_ok (f : α → β) (value : α) :
    (ok value : Outcome ε α).map f = ok (f value) := rfl

@[simp] theorem map_err (f : α → β) (error : ε) :
    (err error : Outcome ε α).map f = err error := rfl

@[simp] theorem map_eq_ok {f : α → β} {x : Outcome ε α} {result : β} :
    x.map f = ok result ↔ ∃ value, x = ok value ∧ f value = result := by
  cases x <;> simp [Outcome.map]

theorem map_map (f : α → β) (g : β → γ) (x : Outcome ε α) :
    (x.map f).map g = x.map fun value => g (f value) := by
  cases x <;> rfl

/-- Turn an absent value into an error, as `Option::ok_or` does. -/
def ofOption (error : ε) : Option α → Outcome ε α
  | some value => ok value
  | none => err error

@[simp] theorem ofOption_some (error : ε) (value : α) :
    ofOption error (some value) = ok value := rfl

@[simp] theorem ofOption_none (error : ε) : ofOption error (none : Option α) = err error := rfl

theorem ofOption_eq_ok {error : ε} {x : Option α} {value : α} :
    ofOption error x = ok value ↔ x = some value := by
  cases x <;> simp

/-- The computation ends in a value or an error. -/
def Returns : Outcome ε α → Prop
  | ok _ | err _ => True
  | panic | outOfFuel => False

theorem Returns.ok (value : α) : Returns (ok value : Outcome ε α) := trivial

theorem Returns.err (error : ε) : Returns (err error : Outcome ε α) := trivial

theorem Returns.ofOption (error : ε) (x : Option α) : Returns (ofOption error x) := by
  cases x <;> trivial

theorem Returns.bind {x : Outcome ε α} {f : α → Outcome ε β} (head : Returns x)
    (tail : ∀ value, x = .ok value → Returns (f value)) : Returns (x >>= f) := by
  cases x with
  | ok value => exact tail value rfl
  | err error => trivial
  | panic | outOfFuel => cases head

theorem returns_bind_iff {x : Outcome ε α} {f : α → Outcome ε β} :
    Returns (x >>= f) ↔ Returns x ∧ ∀ value, x = .ok value → Returns (f value) := by
  constructor
  · intro returns
    cases x with
    | ok value => exact ⟨trivial, fun _ same => Outcome.ok.inj same ▸ returns⟩
    | err error => exact ⟨trivial, nofun⟩
    | panic | outOfFuel => exact returns.elim
  · rintro ⟨head, tail⟩
    exact head.bind tail

theorem returns_map_iff {x : Outcome ε α} {f : α → β} : Returns (x.map f) ↔ Returns x := by
  cases x <;> exact Iff.rfl

theorem returns_iff {x : Outcome ε α} : Returns x ↔ x ≠ panic ∧ x ≠ outOfFuel := by
  cases x <;> simp [Returns]

theorem Returns.ne_panic {x : Outcome ε α} (returns : Returns x) : x ≠ .panic :=
  (returns_iff.mp returns).1

theorem Returns.ne_outOfFuel {x : Outcome ε α} (returns : Returns x) : x ≠ .outOfFuel :=
  (returns_iff.mp returns).2

/-- Where both finish with a value, the values are related. -/
def Related {α : Type v} {β : Type w} (R : α → β → Prop) (x : Outcome ε α) (y : Outcome ε β) : Prop :=
  ∀ a b, x = .ok a → y = .ok b → R a b

theorem Related.ok {R : α → β → Prop} {a : α} {b : β} (related : R a b) :
    Related R (ok a : Outcome ε α) (ok b) := by
  rintro _ _ ⟨⟩ ⟨⟩
  exact related

theorem Related.same (x : Outcome ε α) : Related Eq x x := by
  rintro a b rfl same
  exact Outcome.ok.inj same

theorem Related.bind {R : α → α → Prop} {S : β → β → Prop} {x y : Outcome ε α}
    {f g : α → Outcome ε β} (head : Related R x y) (tail : ∀ a b, R a b → Related S (f a) (g b)) :
    Related S (x >>= f) (y >>= g) := by
  intro a b first second
  obtain ⟨value, first, last⟩ := bind_eq_ok.mp first
  obtain ⟨value', second, last'⟩ := bind_eq_ok.mp second
  exact tail value value' (head value value' first second) a b last last'

section Lists

variable {σ : Type v}

theorem foldlM_congr {f g : σ → α → Outcome ε σ} {values : List α}
    (same : ∀ state, ∀ value ∈ values, f state value = g state value) (start : σ) :
    values.foldlM f start = values.foldlM g start := by
  induction values generalizing start with
  | nil => rfl
  | cons value rest ih =>
    rw [List.foldlM_cons, List.foldlM_cons, same start value List.mem_cons_self]
    exact bind_congr fun next _ =>
      ih (fun state other member => same state other (List.mem_cons_of_mem _ member)) next

theorem foldlM_mono {f g : σ → α → Outcome ε σ}
    (covers : ∀ state value next, f state value = ok next → g state value = ok next) {values : List α}
    {start final : σ} (folded : values.foldlM f start = ok final) :
    values.foldlM g start = ok final := by
  induction values generalizing start with
  | nil => exact folded
  | cons value rest ih =>
    rw [List.foldlM_cons, bind_eq_ok] at folded ⊢
    obtain ⟨next, moved, folded⟩ := folded
    exact ⟨next, covers _ _ _ moved, ih folded⟩

/-- What every pass of a fold keeps, the fold keeps, within its budget if every pass is. -/
theorem bind_ne_panic {x : Outcome ε α} {f : α → Outcome ε β} (head : x ≠ panic)
    (tail : ∀ value, f value ≠ panic) : (x >>= f) ≠ panic := by
  cases x with
  | ok value => exact tail value
  | err | outOfFuel => exact nofun
  | panic => exact absurd rfl head

theorem foldlM_ne_panic {f : σ → α → Outcome ε σ} (step : ∀ state value, f state value ≠ panic)
    (values : List α) (start : σ) : values.foldlM f start ≠ panic := by
  induction values generalizing start with
  | nil => exact nofun
  | cons value rest ih =>
    rw [List.foldlM_cons]
    exact bind_ne_panic (step start value) ih

theorem foldlM_keeps {f : σ → α → Outcome ε σ} {Holds : σ → Prop} {values : List α}
    (step : ∀ state, ∀ value ∈ values, Holds state → f state value ≠ outOfFuel ∧
      ∀ next, f state value = ok next → Holds next) {start : σ} (held : Holds start) :
    values.foldlM f start ≠ outOfFuel ∧
      ∀ final, values.foldlM f start = ok final → Holds final := by
  induction values generalizing start with
  | nil =>
    refine ⟨nofun, fun final folded => ?_⟩
    cases folded
    exact held
  | cons value rest ih =>
    obtain ⟨finished, kept⟩ := step start value List.mem_cons_self held
    have later := fun next (moved : f start value = ok next) =>
      ih (fun state other member => step state other (List.mem_cons_of_mem _ member))
        (kept next moved)
    rw [List.foldlM_cons]
    constructor
    · rw [Ne, bind_eq_outOfFuel]
      rintro (exhausted | ⟨next, moved, exhausted⟩)
      · exact finished exhausted
      · exact (later next moved).1 exhausted
    · intro final folded
      obtain ⟨next, moved, folded⟩ := bind_eq_ok.mp folded
      exact (later next moved).2 final folded

/-- A fold whose every pass computes something and then adds it. -/
theorem foldlM_eq_ok_iff {read : α → Outcome ε β} {add : σ → β → σ} {values : List α}
    {start final : σ} :
    values.foldlM (fun state value => do
      let part ← read value
      .ok (add state part)) start = ok final ↔
      ∃ parts, values.mapM read = ok parts ∧ final = parts.foldl add start := by
  induction values generalizing start with
  | nil => simp [eq_comm]
  | cons value rest ih =>
    rw [List.foldlM_cons, List.mapM_cons]
    cases read value with
    | ok part =>
      simp only [ok_bind, ih, bind_eq_ok, pure_eq, ok.injEq]
      constructor
      · rintro ⟨parts, computed, rfl⟩
        exact ⟨part :: parts, ⟨parts, computed, rfl⟩, rfl⟩
      · rintro ⟨_, ⟨parts, computed, rfl⟩, rfl⟩
        exact ⟨parts, computed, rfl⟩
    | err | panic | outOfFuel => simp

/-- Steps that succeed alike fold alike. -/
theorem foldlM_ok_congr {f g : σ → α → Outcome ε σ} {values : List α}
    (same : ∀ state, ∀ value ∈ values, ∀ next, f state value = ok next ↔ g state value = ok next)
    {start final : σ} : values.foldlM f start = ok final ↔ values.foldlM g start = ok final := by
  induction values generalizing start with
  | nil => rfl
  | cons value rest ih =>
    rw [List.foldlM_cons, List.foldlM_cons, bind_eq_ok, bind_eq_ok]
    refine exists_congr fun next => and_congr (same start value (by simp) next) (ih ?_)
    exact fun state other member => same state other (by simp [member])

theorem mapM_congr {f g : α → Outcome ε β} {values : List α}
    (same : ∀ value ∈ values, f value = g value) : values.mapM f = values.mapM g := by
  induction values with
  | nil => rfl
  | cons value rest ih =>
    rw [List.mapM_cons, List.mapM_cons, same value List.mem_cons_self,
      ih fun other member => same other (List.mem_cons_of_mem _ member)]

theorem mapM_ok {f : α → Outcome ε β} {g : α → β} {values : List α}
    (each : ∀ value ∈ values, f value = ok (g value)) : values.mapM f = ok (values.map g) := by
  induction values with
  | nil => rfl
  | cons value rest ih =>
    simp [List.mapM_cons, each value (by simp), ih fun other member => each other (by simp [member])]

/-- Each part of a list that is computed throughout is computed from a value. -/
theorem mapM_eq_ok_mem {f : α → Outcome ε β} {values : List α} {parts : List β}
    (computed : values.mapM f = ok parts) :
    (∀ value ∈ values, ∃ part ∈ parts, f value = ok part) ∧
      ∀ part ∈ parts, ∃ value ∈ values, f value = ok part := by
  induction values generalizing parts with
  | nil => simp_all
  | cons value rest ih =>
    simp only [List.mapM_cons, bind_eq_ok, pure_eq, ok.injEq] at computed
    obtain ⟨part, here, later, computed, rfl⟩ := computed
    obtain ⟨covered, origin⟩ := ih computed
    constructor
    · intro other member
      rcases List.mem_cons.mp member with rfl | inside
      · exact ⟨part, List.mem_cons_self, here⟩
      · obtain ⟨found, present, same⟩ := covered other inside
        exact ⟨found, List.mem_cons_of_mem _ present, same⟩
    · intro other member
      rcases List.mem_cons.mp member with rfl | inside
      · exact ⟨value, List.mem_cons_self, here⟩
      · obtain ⟨found, present, same⟩ := origin other inside
        exact ⟨found, List.mem_cons_of_mem _ present, same⟩

/-- A fold over values of which some add to what is held and the others act as they do alone. -/
theorem foldlM_interleaved (f : σ → α → Outcome ε σ) (Like : σ → σ → Prop)
    (Holds : σ → List β → Prop) (part : α → Option (List β)) {values : List α}
    (own : ∀ value ∈ values, ∀ parts, part value = some parts → ∀ state alone held,
      Like state alone → Holds state held →
        ∃ next, f state value = ok next ∧ Like next alone ∧ Holds next (held ++ parts))
    (other : ∀ value ∈ values, part value = none → ∀ state alone after held,
      Like state alone → Holds state held → f alone value = ok after →
        ∃ next, f state value = ok next ∧ Like next after ∧ Holds next held)
    {state alone after : σ} {held : List β} (like : Like state alone) (holds : Holds state held)
    (apart : (values.filter fun value => (part value).isNone).foldlM f alone = ok after) :
    ∃ final, values.foldlM f state = ok final ∧ Like final after ∧
      Holds final (held ++ (values.filterMap part).flatten) := by
  induction values generalizing state alone held with
  | nil =>
    cases apart
    exact ⟨state, rfl, like, by simpa using holds⟩
  | cons value rest ih =>
    have ownRest := fun v member => own v (List.mem_cons_of_mem value member)
    have otherRest := fun v member => other v (List.mem_cons_of_mem value member)
    cases kind : part value with
    | some parts =>
      obtain ⟨next, moved, likeNext, holdsNext⟩ :=
        own value List.mem_cons_self parts kind state alone held like holds
      rw [List.filter_cons_of_neg (by simp [kind])] at apart
      obtain ⟨final, folded, likeFinal, holdsFinal⟩ := ih ownRest otherRest likeNext holdsNext apart
      refine ⟨final, ?_, likeFinal, ?_⟩
      · rw [List.foldlM_cons, moved]
        exact folded
      · rwa [List.filterMap_cons_some kind, List.flatten_cons, ← List.append_assoc]
    | none =>
      rw [List.filter_cons_of_pos (by simp [kind]), List.foldlM_cons, bind_eq_ok] at apart
      obtain ⟨middle, here, apart⟩ := apart
      obtain ⟨next, moved, likeNext, holdsNext⟩ :=
        other value List.mem_cons_self kind state alone middle held like holds here
      obtain ⟨final, folded, likeFinal, holdsFinal⟩ := ih ownRest otherRest likeNext holdsNext apart
      refine ⟨final, ?_, likeFinal, ?_⟩
      · rw [List.foldlM_cons, moved]
        exact folded
      · rwa [List.filterMap_cons_none kind]

end Lists

end Outcome

end TptProto.Foundation
