import Colix.Foundation.Execution

/-!
# Response within a number of steps

A path passes a condition when it goes through a state that meets it. `Path.passes` is the rule for
a response that comes within so many marked steps: there is a budget that no step raises and that a
marked step lowers, and as long as the condition is not met, something is left of it.
-/

set_option autoImplicit false
set_option relaxedAutoImplicit false

namespace Colix.Foundation.TransitionSystem

variable {State Event : Type*} {system : TransitionSystem State Event} {goal : State → Prop}
  {first middle last : State} {events : List Event}

/-- A path from `first` to `last` goes through a state that meets the condition. -/
def Passes (system : TransitionSystem State Event) (goal : State → Prop) (first : State)
    (events : List Event) (last : State) : Prop :=
  ∃ before after state, events = before ++ after ∧ system.Path first before state ∧ goal state ∧
    system.Path state after last

/-- A path that ends in a state that meets the condition. -/
theorem Path.passes_last (hpath : system.Path first events last) (hgoal : goal last) :
    system.Passes goal first events last :=
  ⟨events, [], last, (List.append_nil _).symm, hpath, hgoal, Path.refl last⟩

theorem Passes.step {event : Event} (hpasses : system.Passes goal first events middle)
    (hstep : system.step middle event last) :
    system.Passes goal first (events ++ [event]) last := by
  obtain ⟨before, after, state, rfl, hbefore, hgoal, hafter⟩ := hpasses
  exact ⟨before, after ++ [event], state, List.append_assoc .., hbefore, hgoal, hafter.step hstep⟩

/-- A condition passed on the way to a state is passed on the way on from there. -/
theorem Passes.mono {weaker : State → Prop} (hpasses : system.Passes goal first events last)
    (hweaker : ∀ state, goal state → weaker state) : system.Passes weaker first events last := by
  obtain ⟨before, after, state, hevents, hbefore, hgoal, hafter⟩ := hpasses
  exact ⟨before, after, state, hevents, hbefore, hweaker state hgoal, hafter⟩

section Budget

variable {waits : ℕ → State → Prop} {marked : Event → Bool} {budget : ℕ}

/-- A step from a waiting state meets the condition or leaves a state that waits on, with one less
if the step is marked. -/
def Spends (system : TransitionSystem State Event) (waits : ℕ → State → Prop)
    (marked : Event → Bool) (goal : State → Prop) : Prop :=
  ∀ budget state event next, waits budget state → system.step state event next →
    goal next ∨ ∃ rest, waits rest next ∧ rest + (if marked event then 1 else 0) ≤ budget

/-- A path passes the condition, or the last state waits with what its marked steps left. -/
theorem Path.passes_or_waits (hspends : system.Spends waits marked goal)
    (hpath : system.Path first events last) (hfirst : waits budget first) :
    system.Passes goal first events last ∨
      ∃ rest, waits rest last ∧ rest + events.countP marked ≤ budget := by
  induction hpath with
  | refl => exact Or.inr ⟨budget, hfirst, Nat.le_refl budget⟩
  | @step middle last events event hpath hlast ih =>
    rcases ih with hpasses | ⟨rest, hrest, hle⟩
    · exact Or.inl (hpasses.step hlast)
    · rcases hspends rest middle event last hrest hlast with hgoal | ⟨less, hless, hspent⟩
      · exact Or.inl ((hpath.step hlast).passes_last hgoal)
      · refine Or.inr ⟨less, hless, ?_⟩
        rw [List.countP_append, List.countP_singleton]
        omega

/-- The response rule: a path with as many marked steps as the budget allows passes the
condition. -/
theorem Path.passes (hspends : system.Spends waits marked goal)
    (hpositive : ∀ state, ¬ waits 0 state) (hpath : system.Path first events last)
    (hfirst : waits budget first) (hmarked : budget ≤ events.countP marked) :
    system.Passes goal first events last := by
  rcases hpath.passes_or_waits hspends hfirst with hpasses | ⟨rest, hrest, hle⟩
  · exact hpasses
  · obtain rfl : rest = 0 := by omega
    exact absurd hrest (hpositive last)

end Budget

end Colix.Foundation.TransitionSystem
