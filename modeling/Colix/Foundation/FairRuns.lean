import Colix.Foundation.Execution

/-!
# Response under weak fairness

`Execution` is a sequence of steps without end. It is fair to a class of events when such an event
occurs whenever the class is enabled from some time on. `Execution.reaches` is the rule for a
response that takes several classes: every state that does not meet the condition has a helper, a
class that is enabled in it. A step lowers the rank, or it leaves the helper what it is and is not
one of the helper's own.
-/

set_option autoImplicit false
set_option relaxedAutoImplicit false

namespace Colix.Foundation.TransitionSystem

variable {State Event Kind : Type*} {system : TransitionSystem State Event}

/-- A sequence of steps without end. -/
structure Execution (system : TransitionSystem State Event) where
  state : ℕ → State
  event : ℕ → Event
  step : ∀ time, system.step (state time) (event time) (state (time + 1))

/-- Weak fairness: a class of events that is enabled from some time on occurs. -/
def Execution.Fair (execution : system.Execution) (enabled : State → Prop)
    (occurs : Event → Prop) : Prop :=
  ∀ start, (∀ time ≥ start, enabled (execution.state time)) →
    ∃ time ≥ start, occurs (execution.event time)

/-- Each time of an execution is reached by a path. -/
theorem Execution.exists_path (execution : system.Execution) (time : ℕ) :
    ∃ events, system.Path (execution.state 0) events (execution.state time) := by
  induction time with
  | zero => exact ⟨[], Path.refl _⟩
  | succ time ih =>
    obtain ⟨events, hpath⟩ := ih
    exact ⟨_, hpath.step (execution.step time)⟩

/-- What a rank and a helper for each state are to prove that a condition is met. -/
structure Helped (system : TransitionSystem State Event) (invariant goal : State → Prop)
    (enabled : Kind → State → Prop) (occurs : Kind → Event → Prop) (rank : State → ℕ)
    (helper : State → Kind) : Prop where
  kept : ∀ state event next, invariant state → system.step state event next → invariant next
  enabled : ∀ state, invariant state → ¬ goal state → enabled (helper state) state
  step : ∀ state event next, invariant state → ¬ goal state → system.step state event next →
    rank next < rank state ∨
      rank next = rank state ∧ helper next = helper state ∧ ¬ occurs (helper state) event

section Helped

variable {invariant goal : State → Prop} {enabled : Kind → State → Prop}
  {occurs : Kind → Event → Prop} {rank : State → ℕ} {helper : State → Kind}

/-- While the rank stays, the helper stays, and none of its events occur. -/
theorem Helped.same_while (hhelped : system.Helped invariant goal enabled occurs rank helper)
    (execution : system.Execution) (hinvariant : ∀ time, invariant (execution.state time))
    (hnever : ∀ time, ¬ goal (execution.state time)) {start : ℕ}
    (hrank : ∀ time ≥ start, rank (execution.state start) ≤ rank (execution.state time))
    (count : ℕ) :
    rank (execution.state (start + count)) = rank (execution.state start) ∧
      helper (execution.state (start + count)) = helper (execution.state start) := by
  induction count with
  | zero => exact ⟨rfl, rfl⟩
  | succ count ih =>
    have hle := hrank (start + (count + 1)) (by omega)
    rcases hhelped.step _ _ _ (hinvariant _) (hnever _) (execution.step (start + count)) with
      hless | ⟨hsame, hhelper, -⟩
    · rw [ih.1] at hless
      exact absurd hle (Nat.not_le_of_lt hless)
    · exact ⟨hsame.trans ih.1, hhelper.trans ih.2⟩

/-- The response rule: an execution that is fair to every class meets the condition. -/
theorem Execution.reaches (execution : system.Execution)
    (hhelped : system.Helped invariant goal enabled occurs rank helper)
    (hfair : ∀ kind, execution.Fair (enabled kind) (occurs kind))
    (hstart : invariant (execution.state 0)) : ∃ time, goal (execution.state time) := by
  by_contra hnone
  have hnever : ∀ time, ¬ goal (execution.state time) := fun time hgoal ↦ hnone ⟨time, hgoal⟩
  have hinvariant : ∀ time, invariant (execution.state time) := by
    intro time
    obtain ⟨events, hpath⟩ := execution.exists_path time
    exact hpath.preserves hhelped.kept hstart
  -- by induction on the rank: no time has it
  have hno : ∀ bound time, rank (execution.state time) ≠ bound := by
    intro bound
    induction bound using Nat.strongRecOn with
    | ind bound ih =>
      rintro start rfl
      have hrank : ∀ time ≥ start, rank (execution.state start) ≤ rank (execution.state time) :=
        fun time _ ↦ Nat.le_of_not_lt fun hless ↦ ih _ hless time rfl
      have hsame := hhelped.same_while execution hinvariant hnever hrank
      have henabled : ∀ time ≥ start,
          enabled (helper (execution.state start)) (execution.state time) := by
        intro time htime
        obtain ⟨count, rfl⟩ := Nat.exists_eq_add_of_le htime
        rw [← (hsame count).2]
        exact hhelped.enabled _ (hinvariant _) (hnever _)
      obtain ⟨time, htime, hoccurs⟩ := hfair _ start henabled
      obtain ⟨count, rfl⟩ := Nat.exists_eq_add_of_le htime
      rcases hhelped.step _ _ _ (hinvariant _) (hnever _) (execution.step (start + count)) with
        hless | ⟨-, -, hnot⟩
      · rw [(hsame count).1] at hless
        exact ih _ hless _ rfl
      · rw [(hsame count).2] at hnot
        exact hnot hoccurs
  exact hno _ 0 rfl

end Helped

end Colix.Foundation.TransitionSystem
