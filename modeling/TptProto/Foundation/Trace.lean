/-! Traces of a step relation: the lists of the events that happen in its runs. -/

namespace TptProto.Foundation

variable {State Event : Type} {step : State → Event → State → Prop}

inductive Trace (step : State → Event → State → Prop) : State → List Event → State → Prop where
  | nil (s : State) : Trace step s [] s
  | cons {s next final : State} {event : Event} {events : List Event} :
      step s event next → Trace step next events final → Trace step s (event :: events) final

/-- Every step of a run meets a condition on the state before it and its event. -/
def Throughout (step : State → Event → State → Prop) (meets : State → Event → Prop)
    (start : State) (events : List Event) : Prop :=
  ∀ before event after s, events = before ++ event :: after → Trace step start before s →
    meets s event

namespace Trace

theorem append_iff {s final : State} {before after : List Event} :
    Trace step s (before ++ after) final ↔
      ∃ middle, Trace step s before middle ∧ Trace step middle after final := by
  constructor
  · intro run
    induction before generalizing s with
    | nil => exact ⟨s, .nil s, run⟩
    | cons event rest inductionHypothesis =>
      cases run with
      | cons taken later =>
        obtain ⟨middle, first, second⟩ := inductionHypothesis later
        exact ⟨middle, .cons taken first, second⟩
  · rintro ⟨middle, first, second⟩
    induction first with
    | nil => exact second
    | cons taken _ inductionHypothesis => exact .cons taken (inductionHypothesis second)

theorem split {s final : State} {before after : List Event} {event : Event}
    (run : Trace step s (before ++ event :: after) final) :
    ∃ middle next, Trace step s before middle ∧ step middle event next ∧
      Trace step next after final := by
  obtain ⟨middle, first, second⟩ := append_iff.mp run
  cases second with
  | cons taken later => exact ⟨middle, _, first, taken, later⟩

/-- What every step that meets the condition preserves, holds at the end of the run. -/
theorem invariant {meets : State → Event → Prop} {holds : State → Prop} {s final : State}
    {events : List Event} (run : Trace step s events final)
    (all : Throughout step meets s events) (start : holds s)
    (preserved : ∀ s event next, holds s → meets s event → step s event next → holds next) :
    holds final := by
  induction run with
  | nil => exact start
  | @cons s next final event events taken _ inductionHypothesis =>
    apply inductionHypothesis
    · intro before other after middle same reached
      exact all (event :: before) other after middle (by rw [same]; rfl) (.cons taken reached)
    · exact preserved s event next start (all [] event events s rfl (.nil s)) taken

/-- When every event has one outcome, the events determine the run. -/
theorem unique (determined : ∀ s event first second, step s event first → step s event second →
    first = second) {s first second : State} {events : List Event}
    (one : Trace step s events first) (other : Trace step s events second) : first = second := by
  induction one with
  | nil => cases other; rfl
  | cons taken _ inductionHypothesis =>
    cases other with
    | cons taken' later' =>
      cases determined _ _ _ _ taken taken'
      exact inductionHypothesis later'

end Trace

theorem Throughout.nil {meets : State → Event → Prop} {start : State} :
    Throughout step meets start [] := by
  intro before event after s same
  cases List.append_eq_nil_iff.mp same.symm |>.2

theorem Throughout.cons {meets : State → Event → Prop} {start : State} {event : Event}
    {events : List Event} (here : meets start event)
    (later : ∀ next, step start event next → Throughout step meets next events) :
    Throughout step meets start (event :: events) := by
  intro before other after s same run
  cases run with
  | nil =>
    cases same
    exact here
  | cons taken rest =>
    rw [List.cons_append] at same
    cases same
    exact later _ taken _ other after s rfl rest

/-- When every event has one outcome, a run is followed step by step. -/
theorem Throughout.follow {meets : State → Event → Prop} {start next : State} {event : Event}
    {events : List Event} (determined : ∀ s event first second, step s event first →
      step s event second → first = second) (here : meets start event)
    (taken : step start event next) (later : Throughout step meets next events) :
    Throughout step meets start (event :: events) := by
  refine .cons here fun other taken' => ?_
  rw [determined start event other next taken' taken]
  exact later

/-- A run that keeps to the condition stays good; one that leaves it turns bad for good. -/
theorem Trace.fate {meets : State → Event → Prop} {good bad : State → Prop} {s final : State}
    {events : List Event} (run : Trace step s events final)
    (determined : ∀ s event first second, step s event first → step s event second →
      first = second) (start : good s)
    (keeps : ∀ s event next, good s → meets s event → step s event next → good next)
    (breaks : ∀ s event next, good s → ¬ meets s event → step s event next → bad next)
    (stays : ∀ s event next, bad s → step s event next → bad next) :
    (Throughout step meets s events → good final) ∧
      (¬ Throughout step meets s events → bad final) := by
  refine ⟨fun all => run.invariant all start keeps, ?_⟩
  induction run with
  | nil => exact fun left => (left Throughout.nil).elim
  | @cons s next final event events taken rest inductionHypothesis =>
    intro left
    by_cases here : meets s event
    · exact inductionHypothesis (keeps s event next start here taken) fun later =>
        left (.follow determined here taken later)
    · exact rest.invariant (fun _ _ _ _ _ _ => trivial) (breaks s event next start here taken)
        (fun s event next held (_ : True) => stays s event next held)

/-- The steps after a part of the run meet the condition too. -/
theorem Throughout.after {meets : State → Event → Prop} {start middle : State}
    {before after : List Event} (all : Throughout step meets start (before ++ after))
    (reached : Trace step start before middle) : Throughout step meets middle after := by
  intro first event rest s same run
  apply all (before ++ first) event rest s
  · rw [same, List.append_assoc]
  · exact Trace.append_iff.mpr ⟨middle, reached, run⟩

theorem Throughout.before {meets : State → Event → Prop} {start : State}
    {before after : List Event} (all : Throughout step meets start (before ++ after)) :
    Throughout step meets start before := by
  intro first event rest s same run
  apply all first event (rest ++ after) s _ run
  rw [same, List.append_assoc, List.cons_append]

end TptProto.Foundation
