import Mathlib.Data.List.Basic
import Mathlib.Data.List.Induction
import Mathlib.Tactic.Common

/-!
# Labelled executions

A system has starting states and a labelled step relation. `Path` is a finite sequence of steps
between two states with the labels it took, oldest first, and `Run` a path from a starting state.
A label carries what a step did and what it returned, so the labels of a run are its history.

`Run.invariant` is the induction every safety result uses: what holds at the start and is kept by
each step holds in every state a run reaches. `Run.history_invariant` is the same rule for a
relation between the history and the state. `Run.simulates` carries a run of one system to a run of
another along a simulation relation and a map of events.
-/

set_option autoImplicit false
set_option relaxedAutoImplicit false

namespace Colix.Foundation

/-- A transition system: its starting states and its labelled steps. -/
structure TransitionSystem (State Event : Type*) where
  start : State → Prop
  step : State → Event → State → Prop

namespace TransitionSystem

variable {State Event : Type*} {system : TransitionSystem State Event}

/-- A finite sequence of steps between two states, with its events oldest first. -/
inductive Path (system : TransitionSystem State Event) : State → List Event → State → Prop
  | refl (state : State) : Path system state [] state
  | step {first middle last : State} {events : List Event} {event : Event} :
      Path system first events middle → system.step middle event last →
        Path system first (events ++ [event]) last

/-- A path from a starting state. -/
def Run (system : TransitionSystem State Event) (events : List Event) (state : State) : Prop :=
  ∃ origin, system.start origin ∧ system.Path origin events state

/-- The runs of a system whose steps meet a condition. -/
def restrict (system : TransitionSystem State Event) (condition : State → Event → Prop) :
    TransitionSystem State Event where
  start := system.start
  step state event next := condition state event ∧ system.step state event next

/-- The system whose steps a partial function computes. -/
def ofFunction (start : State → Prop) (next : State → Event → Option State) :
    TransitionSystem State Event where
  start := start
  step state event after := next state event = some after

/-- Consecutive paths compose. -/
theorem Path.trans {first middle last : State} {before after : List Event}
    (hbefore : system.Path first before middle) (hafter : system.Path middle after last) :
    system.Path first (before ++ after) last := by
  induction hafter with
  | refl => simpa using hbefore
  | step _ hstep ih =>
    rw [← List.append_assoc]
    exact ih.step hstep

/-- The last step of a path. -/
theorem Path.last {first last : State} {events : List Event} {event : Event}
    (hpath : system.Path first (events ++ [event]) last) :
    ∃ middle, system.Path first events middle ∧ system.step middle event last := by
  generalize hevents : events ++ [event] = history at hpath
  cases hpath with
  | refl => exact absurd hevents (by simp)
  | step hbefore hstep =>
    obtain ⟨rfl, heq⟩ := List.append_inj' hevents rfl
    obtain rfl := List.singleton_inj.mp heq
    exact ⟨_, hbefore, hstep⟩

/-- A path along two histories passes between them. -/
theorem Path.split {first last : State} {before after : List Event}
    (hpath : system.Path first (before ++ after) last) :
    ∃ middle, system.Path first before middle ∧ system.Path middle after last := by
  induction after using List.reverseRecOn generalizing last with
  | nil => exact ⟨last, by rwa [List.append_nil] at hpath, Path.refl last⟩
  | append_singleton after event ih =>
    rw [← List.append_assoc] at hpath
    obtain ⟨middle, hbefore, hstep⟩ := hpath.last
    obtain ⟨between, hfirst, hsecond⟩ := ih hbefore
    exact ⟨between, hfirst, hsecond.step hstep⟩

/-- What a partial function computes from a list of events is a path. -/
theorem path_of_foldlM {start : State → Prop} {next : State → Event → Option State}
    {events : List Event} {first last : State}
    (hcomputes : events.foldlM next first = some last) :
    (ofFunction start next).Path first events last := by
  induction events using List.reverseRecOn generalizing last with
  | nil =>
    obtain rfl := Option.some.inj hcomputes
    exact Path.refl first
  | append_singleton events event ih =>
    rw [List.foldlM_append, Option.bind_eq_bind, Option.bind_eq_some_iff] at hcomputes
    obtain ⟨middle, hmiddle, hlast⟩ := hcomputes
    have hstep : next middle event = some last := by simpa using hlast
    exact (ih hmiddle).step hstep

/-- A path of a system is one of every system that has its steps. -/
theorem Path.mono {other : TransitionSystem State Event}
    (hsteps : ∀ state event next, system.step state event next → other.step state event next)
    {first last : State} {events : List Event} (hpath : system.Path first events last) :
    other.Path first events last := by
  induction hpath with
  | refl => exact Path.refl _
  | step _ hlast ih => exact ih.step (hsteps _ _ _ hlast)

/-- What each step keeps, a path keeps. -/
theorem Path.preserves {motive : State → Prop}
    (hstep : ∀ state event next, motive state → system.step state event next → motive next)
    {first last : State} {events : List Event} (hpath : system.Path first events last)
    (hfirst : motive first) : motive last := by
  induction hpath with
  | refl => exact hfirst
  | step _ hlast ih => exact hstep _ _ _ ih hlast

/-- A starting state is reached by the empty history. -/
theorem Run.start {state : State} (hstart : system.start state) : system.Run [] state :=
  ⟨state, hstart, Path.refl state⟩

/-- A run is extended by a step. -/
theorem Run.step {state next : State} {events : List Event} {event : Event}
    (hrun : system.Run events state) (hstep : system.step state event next) :
    system.Run (events ++ [event]) next := by
  obtain ⟨origin, horigin, hpath⟩ := hrun
  exact ⟨origin, horigin, hpath.step hstep⟩

/-- A run whose steps meet a condition is a run. -/
theorem Run.of_restrict {condition : State → Event → Prop} {events : List Event} {state : State}
    (hrun : (system.restrict condition).Run events state) : system.Run events state := by
  obtain ⟨origin, horigin, hpath⟩ := hrun
  exact ⟨origin, horigin, hpath.mono fun _ _ _ (hstep : condition _ _ ∧ _) ↦ hstep.2⟩

/-- A computed run. -/
theorem Run.of_get {start : State → Prop} {next : State → Event → Option State}
    {events : List Event} {first : State} (hstart : start first)
    (hcomputes : (events.foldlM next first).isSome) :
    (ofFunction start next).Run events ((events.foldlM next first).get hcomputes) :=
  ⟨first, hstart, path_of_foldlM (Option.some_get hcomputes).symm⟩

/-- A run is extended by a path. -/
theorem Run.append {state next : State} {before after : List Event}
    (hrun : system.Run before state) (hpath : system.Path state after next) :
    system.Run (before ++ after) next := by
  obtain ⟨origin, horigin, hbefore⟩ := hrun
  exact ⟨origin, horigin, hbefore.trans hpath⟩

/-- The invariant rule: what holds of every starting state and is kept by each step holds of every
state a run reaches. -/
theorem Run.invariant {motive : State → Prop} (hstart : ∀ state, system.start state → motive state)
    (hstep : ∀ state event next, motive state → system.step state event next → motive next)
    {events : List Event} {state : State} (hrun : system.Run events state) : motive state := by
  obtain ⟨origin, horigin, hpath⟩ := hrun
  exact hpath.preserves hstep (hstart origin horigin)

/-- The invariant rule for a relation between the history of a run and the state it reaches. -/
theorem Run.history_invariant {motive : List Event → State → Prop}
    (hstart : ∀ state, system.start state → motive [] state)
    (hstep : ∀ events state event next, motive events state → system.step state event next →
      motive (events ++ [event]) next)
    {events : List Event} {state : State} (hrun : system.Run events state) :
    motive events state := by
  obtain ⟨origin, horigin, hpath⟩ := hrun
  induction hpath with
  | refl => exact hstart _ horigin
  | step _ hlast ih => exact hstep _ _ _ _ ih hlast

/-- A computed run whose steps meet a condition. -/
theorem Run.restrict_of_get {start : State → Prop} {next : State → Event → Option State}
    {condition : State → Event → Prop} [∀ state event, Decidable (condition state event)]
    {events : List Event} {first : State} (hstart : start first)
    (hcomputes : (events.foldlM (fun state event ↦
      if condition state event then next state event else none) first).isSome) :
    ((ofFunction start next).restrict condition).Run events
      ((events.foldlM (fun state event ↦
        if condition state event then next state event else none) first).get hcomputes) := by
  have hrun := Run.of_get hstart hcomputes
  generalize Option.get _ hcomputes = last at hrun ⊢
  refine hrun.history_invariant (motive := fun events state ↦
    ((ofFunction start next).restrict condition).Run events state) ?_ ?_
  · exact fun _ h ↦ Run.start h
  · intro events state event after hbefore hstep
    have hguarded : (if condition state event then next state event else none) = some after := hstep
    split_ifs at hguarded with hmet
    exact hbefore.step ⟨hmet, hguarded⟩

/-- Forward simulation, along a relation that may look at the history: when every start is matched
and every step between related states is matched by a step with the observed event, a run is matched
by a run with the observed history. -/
theorem Run.simulates {Abstract Observed : Type*} {spec : TransitionSystem Abstract Observed}
    (related : List Event → State → Abstract → Prop) {observe : Event → Observed}
    (hstart : ∀ state, system.start state → ∃ image, spec.start image ∧ related [] state image)
    (hstep : ∀ events state image event next, related events state image →
      system.step state event next → ∃ imageNext, spec.step image (observe event) imageNext ∧
        related (events ++ [event]) next imageNext)
    {events : List Event} {state : State} (hrun : system.Run events state) :
    ∃ image, spec.Run (events.map observe) image ∧ related events state image := by
  refine hrun.history_invariant (motive := fun events state ↦
    ∃ image, spec.Run (events.map observe) image ∧ related events state image) ?_ ?_
  · intro state horigin
    obtain ⟨image, himage, hrelated⟩ := hstart state horigin
    exact ⟨image, Run.start himage, hrelated⟩
  · rintro events state event next ⟨image, himage, hrelated⟩ hlast
    obtain ⟨imageNext, hmatch, hnext⟩ := hstep events state image event next hrelated hlast
    refine ⟨imageNext, ?_, hnext⟩
    rw [List.map_append]
    exact himage.step hmatch

end TransitionSystem

end Colix.Foundation
