import Mathlib.Algebra.Ring.Nat
import Mathlib.Data.List.Basic

/-!
# Runs of a transition system under a guard

A system is given by a partial step function: an event that has no result ends
the system.  Whatever the system leaves undecided is part of the event.  A run
is *guarded* when each of its events satisfies a predicate of the state it
meets.  An invariant that guarded steps preserve holds after every guarded run,
and since a prefix of a guarded run is guarded, at every state on the way.
-/

namespace Chaosircd

namespace TransitionSystem

variable {State Event : Type*}

/-- The state after a list of events, when all of them have a result. -/
def run (step : State → Event → Option State) :
    State → List Event → Option State
  | state, [] => some state
  | state, event :: events =>
      match step state event with
      | none => none
      | some next => run step next events

/-- Every event of the list meets the guard in the state it is applied to. -/
def GuardedRun (step : State → Event → Option State)
    (guard : State → Event → Prop) : State → List Event → Prop
  | _, [] => True
  | state, event :: events =>
      guard state event ∧
        match step state event with
        | none => True
        | some next => GuardedRun step guard next events

instance decidableGuardedRun {step : State → Event → Option State}
    {guard : State → Event → Prop} [∀ state event, Decidable (guard state event)]
    (state : State) (events : List Event) :
    Decidable (GuardedRun step guard state events) := by
  induction events generalizing state with
  | nil => exact inferInstanceAs (Decidable True)
  | cons event events ih =>
      unfold GuardedRun
      exact @instDecidableAnd _ _ _ (match step state event with
        | none => inferInstanceAs (Decidable True)
        | some next => ih next)

/-- Where every event has a result, a run is a fold. -/
theorem run_some_eq_foldl (exec : State → Event → State) (state : State) (events : List Event) :
    run (fun state event => some (exec state event)) state events =
      some (events.foldl exec state) := by
  induction events generalizing state with
  | nil => rfl
  | cons event events induction => exact induction (exec state event)

/-- The invariant rule: what guarded steps preserve holds after a guarded
run. -/
theorem invariant_of_guardedRun {step : State → Event → Option State}
    {guard : State → Event → Prop} {Inv : State → Prop}
    (preserved : ∀ state event next, Inv state → guard state event →
      step state event = some next → Inv next)
    {state final : State} {events : List Event} (holds : Inv state)
    (guarded : GuardedRun step guard state events)
    (runs : run step state events = some final) : Inv final := by
  induction events generalizing state with
  | nil =>
      cases runs
      exact holds
  | cons event events ih =>
      obtain ⟨allowed, guarded⟩ := guarded
      cases stepped : step state event with
      | none => simp [run, stepped] at runs
      | some next =>
          simp only [run, stepped] at runs guarded
          exact ih (preserved state event next holds allowed stepped) guarded
            runs

/-- The invariant rule without a guard. -/
theorem invariant_of_run {step : State → Event → Option State} {Inv : State → Prop}
    (preserved : ∀ state event next, Inv state → step state event = some next → Inv next)
    {state final : State} {events : List Event} (holds : Inv state)
    (runs : run step state events = some final) : Inv final := by
  induction events generalizing state with
  | nil =>
      cases runs
      exact holds
  | cons event events induction =>
      cases stepped : step state event with
      | none => simp [run, stepped] at runs
      | some next =>
          simp only [run, stepped] at runs
          exact induction (preserved state event next holds stepped) runs

/-- Where guarded steps always have a result that keeps the invariant, so do guarded
runs. -/
theorem reaches_of_guardedRun {step : State → Event → Option State}
    {guard : State → Event → Prop} {Inv : State → Prop}
    (progress : ∀ state event, Inv state → guard state event →
      ∃ next, step state event = some next ∧ Inv next)
    {state : State} {events : List Event} (holds : Inv state)
    (guarded : GuardedRun step guard state events) :
    ∃ final, run step state events = some final ∧ Inv final := by
  induction events generalizing state with
  | nil => exact ⟨state, rfl, holds⟩
  | cons event events ih =>
      obtain ⟨allowed, guarded⟩ := guarded
      obtain ⟨next, stepped, holds'⟩ := progress state event holds allowed
      rw [stepped] at guarded
      rw [run, stepped]
      exact ih holds' guarded

/-- A guarded run splits into guarded runs. -/
theorem GuardedRun.of_append {step : State → Event → Option State}
    {guard : State → Event → Prop} {state : State} {events rest : List Event}
    (guarded : GuardedRun step guard state (events ++ rest)) :
    GuardedRun step guard state events ∧
      ∀ middle, run step state events = some middle →
        GuardedRun step guard middle rest := by
  induction events generalizing state with
  | nil =>
      refine ⟨trivial, fun middle runs => ?_⟩
      cases runs
      exact guarded
  | cons event events ih =>
      obtain ⟨allowed, guarded⟩ := guarded
      cases stepped : step state event with
      | none => exact ⟨⟨allowed, by simp [stepped]⟩, by simp [run, stepped]⟩
      | some next =>
          simp only [stepped] at guarded
          obtain ⟨first, second⟩ := ih guarded
          exact ⟨⟨allowed, by simpa only [stepped] using first⟩,
            by simpa only [run, stepped] using second⟩

/-- A guard that nothing fails admits every run. -/
theorem guardedRun_of_forall {step : State → Event → Option State}
    {guard : State → Event → Prop} (always : ∀ state event, guard state event) (state : State)
    (events : List Event) : GuardedRun step guard state events := by
  induction events generalizing state with
  | nil => trivial
  | cons event events induction =>
      refine ⟨always state event, ?_⟩
      cases step state event with
      | none => trivial
      | some next => exact induction next

/-- A weaker guard admits more runs. -/
theorem GuardedRun.mono {step : State → Event → Option State}
    {guard guard' : State → Event → Prop}
    (weaker : ∀ state event, guard state event → guard' state event)
    {state : State} {events : List Event}
    (guarded : GuardedRun step guard state events) :
    GuardedRun step guard' state events := by
  induction events generalizing state with
  | nil => trivial
  | cons event events ih =>
      obtain ⟨allowed, guarded⟩ := guarded
      refine ⟨weaker _ _ allowed, ?_⟩
      cases stepped : step state event with
      | none => trivial
      | some next =>
          simp only [stepped] at guarded
          exact ih guarded

/-- A guard that is weaker wherever an invariant holds admits more runs. -/
theorem GuardedRun.mono_of_invariant {step : State → Event → Option State}
    {guard guard' : State → Event → Prop} {Inv : State → Prop}
    (weaker : ∀ state event, Inv state → guard state event → guard' state event)
    (preserved : ∀ state event next, Inv state → guard state event →
      step state event = some next → Inv next)
    {state : State} {events : List Event} (holds : Inv state)
    (guarded : GuardedRun step guard state events) : GuardedRun step guard' state events := by
  induction events generalizing state with
  | nil => trivial
  | cons event events ih =>
      obtain ⟨allowed, guarded⟩ := guarded
      refine ⟨weaker state event holds allowed, ?_⟩
      cases stepped : step state event with
      | none => trivial
      | some next =>
          rw [stepped] at guarded
          exact ih (preserved state event next holds allowed stepped) guarded

/-- Two guards that agree wherever an invariant and a promise hold admit the same runs. -/
theorem guardedRun_congr {step : State → Event → Option State}
    {promise guard guard' : State → Event → Prop} {Inv : State → Prop}
    (agree : ∀ state event, Inv state → promise state event →
      (guard state event ↔ guard' state event))
    (preserved : ∀ state event next, Inv state → promise state event → guard' state event →
      step state event = some next → Inv next)
    {state : State} {events : List Event} (holds : Inv state)
    (promised : GuardedRun step promise state events) :
    GuardedRun step guard state events ↔ GuardedRun step guard' state events := by
  induction events generalizing state with
  | nil => exact Iff.rfl
  | cons event events ih =>
      obtain ⟨kept, promised⟩ := promised
      rw [GuardedRun, GuardedRun, agree state event holds kept]
      refine and_congr_right fun allowed => ?_
      cases stepped : step state event with
      | none => exact Iff.rfl
      | some next =>
          rw [stepped] at promised
          exact ih (preserved state event next holds kept allowed stepped) promised

/-- Where every event has a result, the guard is met all along a run if and only if what
it is there for is seen in every state on the way. -/
theorem guardedRun_iff_forall {exec : State → Event → State} {guard : State → Event → Prop}
    {Inv Seen : State → Prop} (sees : ∀ state, Inv state → Seen state)
    (preserved : ∀ state event, Inv state → guard state event → Inv (exec state event))
    (needed : ∀ state event, Inv state → Seen (exec state event) → guard state event)
    {state : State} (holds : Inv state) (events : List Event) :
    (∀ before, before <+: events → Seen (before.foldl exec state)) ↔
      GuardedRun (fun state event => some (exec state event)) guard state events := by
  induction events generalizing state with
  | nil =>
      refine ⟨fun _ => trivial, ?_⟩
      intro _ before shorter
      obtain rfl := List.prefix_nil.mp shorter
      exact sees state holds
  | cons event events ih =>
      constructor
      · intro seen
        have allowed : guard state event :=
          needed state event holds (seen [event] (by simp))
        refine ⟨allowed, (ih (preserved state event holds allowed)).mp ?_⟩
        intro before shorter
        exact seen (event :: before) (by simpa using shorter)
      · rintro ⟨allowed, guarded⟩ before shorter
        cases before with
        | nil => exact sees state holds
        | cons first before =>
            obtain ⟨same, rest⟩ := List.cons_prefix_cons.mp shorter
            subst same
            exact (ih (preserved state first holds allowed)).mpr guarded before rest

/-! ## Systems with outputs -/

variable {State' Output : Type*}

/-- The final state and the outputs of a system in which every event has a
result. -/
def outputs (exec : State → Event → State × Output) :
    State → List Event → State × List Output
  | state, [] => (state, [])
  | state, event :: events =>
      ((outputs exec (exec state event).1 events).1,
        (exec state event).2 :: (outputs exec (exec state event).1 events).2)

/-- The simulation rule: when guarded steps keep two systems related and answer
alike, so do guarded runs. -/
theorem outputs_eq_of_simulation {exec : State → Event → State × Output}
    {exec' : State' → Event → State' × Output} {guard : State → Event → Prop}
    {Related : State → State' → Prop}
    (simulates : ∀ state state' event, Related state state' →
      guard state event → (exec state event).2 = (exec' state' event).2 ∧
        Related (exec state event).1 (exec' state' event).1)
    {state : State} {state' : State'} {events : List Event}
    (related : Related state state')
    (guarded : GuardedRun (fun state event => some (exec state event).1) guard
      state events) :
    (outputs exec state events).2 = (outputs exec' state' events).2 ∧
      Related (outputs exec state events).1 (outputs exec' state' events).1 := by
  induction events generalizing state state' with
  | nil => exact ⟨rfl, related⟩
  | cons event events ih =>
      obtain ⟨allowed, guarded⟩ := guarded
      obtain ⟨answer, related⟩ := simulates state state' event related allowed
      obtain ⟨answers, final⟩ := ih related guarded
      exact ⟨congrArg₂ List.cons answer answers, final⟩

end TransitionSystem

end Chaosircd
