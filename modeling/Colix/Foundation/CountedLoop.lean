import Mathlib.Tactic.Common

/-!
# Counted loops

A loop `for (i = 0; i < count; i++)` whose body may give up. `countedLoop_rule` is the invariant
rule, indexed by the iterations done, and `countedLoop_total` the rule for a loop that runs to its
end. `leavingLoop` is a loop whose body may also leave it, with a value.
-/

set_option autoImplicit false
set_option relaxedAutoImplicit false

namespace Colix.Foundation

variable {State : Type*} {body : ℕ → State → Option State} {motive : ℕ → State → Prop}
  {count : ℕ} {first last : State}

/-- The state after the first `count` iterations. -/
def countedLoop (body : ℕ → State → Option State) : ℕ → State → Option State
  | 0, first => some first
  | count + 1, first => (countedLoop body count first).bind (body count)

/-- What holds before the loop and is kept by each iteration holds after it. -/
theorem countedLoop_rule (hstart : motive 0 first)
    (hstep : ∀ i < count, ∀ state next, countedLoop body i first = some state → motive i state →
      body i state = some next → motive (i + 1) next)
    (hloop : countedLoop body count first = some last) : motive count last := by
  induction count generalizing last with
  | zero =>
    cases hloop
    exact hstart
  | succ count ih =>
    rw [countedLoop, Option.bind_eq_some_iff] at hloop
    obtain ⟨state, hstate, hbody⟩ := hloop
    have hmotive := ih (fun i hi ↦ hstep i (by omega)) hstate
    exact hstep count (by omega) state last hstate hmotive hbody

/-- A loop whose body does not give up runs to its end. -/
theorem countedLoop_total (hstart : motive 0 first)
    (hbody : ∀ i < count, ∀ state, countedLoop body i first = some state → motive i state →
      ∃ next, body i state = some next ∧ motive (i + 1) next) :
    ∃ last, countedLoop body count first = some last ∧ motive count last := by
  induction count with
  | zero => exact ⟨first, rfl, hstart⟩
  | succ count ih =>
    obtain ⟨state, hstate, hmotive⟩ := ih fun i hi ↦ hbody i (by omega)
    obtain ⟨last, hlast, hnext⟩ := hbody count (by omega) state hstate hmotive
    refine ⟨last, ?_, hnext⟩
    rw [countedLoop, hstate, Option.bind_some, hlast]

/-- A loop that ran to its end made each of its iterations. -/
theorem countedLoop_reaches (hloop : countedLoop body count first = some last) {i : ℕ}
    (hi : i < count) : ∃ state next, countedLoop body i first = some state ∧
      body i state = some next := by
  induction count generalizing last with
  | zero => exact absurd hi (Nat.not_lt_zero i)
  | succ count ih =>
    rw [countedLoop, Option.bind_eq_some_iff] at hloop
    obtain ⟨state, hstate, hbody⟩ := hloop
    rcases Nat.lt_succ_iff_lt_or_eq.mp hi with hlt | rfl
    · exact ih hstate hlt
    · exact ⟨state, last, hstate, hbody⟩

/-- What holds before a loop that always goes on and is kept by each iteration holds after it. -/
theorem foldl_range_rule {step : State → ℕ → State} (hstart : motive 0 first)
    (hstep : ∀ i < count, ∀ state, motive i state → motive (i + 1) (step state i)) :
    motive count ((List.range count).foldl step first) := by
  induction count with
  | zero => exact hstart
  | succ count ih =>
    rw [List.range_succ, List.foldl_append, List.foldl_cons, List.foldl_nil]
    exact hstep count (by omega) _ (ih fun i hi ↦ hstep i (by omega))

section Leaving

variable {Exit : Type*} {body : ℕ → State → Option (Exit ⊕ State)} {left : Exit → Prop}
  {outcome : Exit ⊕ State}

/-- The state after the first `count` iterations, or the value one of them left the loop with. -/
def leavingLoop (body : ℕ → State → Option (Exit ⊕ State)) :
    ℕ → State → Option (Exit ⊕ State)
  | 0, first => some (Sum.inr first)
  | count + 1, first =>
    match leavingLoop body count first with
    | none => none
    | some (Sum.inl exit) => some (Sum.inl exit)
    | some (Sum.inr state) => body count state

/-- What holds before the loop and is kept by each iteration holds after it, or held when it was
left. -/
theorem leavingLoop_rule (hstart : motive 0 first)
    (hstep : ∀ i < count, ∀ state next, leavingLoop body i first = some (Sum.inr state) →
      motive i state → body i state = some next → Sum.elim left (motive (i + 1)) next)
    (hloop : leavingLoop body count first = some outcome) :
    Sum.elim left (motive count) outcome := by
  induction count generalizing outcome with
  | zero =>
    cases hloop
    exact hstart
  | succ count ih =>
    have hbefore : ∀ outcome, leavingLoop body count first = some outcome →
        Sum.elim left (motive count) outcome :=
      fun _ hloop ↦ ih (fun i hi ↦ hstep i (by omega)) hloop
    rw [leavingLoop] at hloop
    cases hsofar : leavingLoop body count first with
    | none =>
      rw [hsofar] at hloop
      cases hloop
    | some reached =>
      rw [hsofar] at hloop
      cases reached with
      | inl exit =>
        cases hloop
        exact hbefore (Sum.inl exit) hsofar
      | inr state =>
        exact hstep count (by omega) state outcome hsofar (hbefore (Sum.inr state) hsofar) hloop

/-- A loop that was left stays left. -/
theorem leavingLoop_of_left {done : ℕ} {exit : Exit} (hdone : done ≤ count)
    (hleft : leavingLoop body done first = some (Sum.inl exit)) :
    leavingLoop body count first = some (Sum.inl exit) := by
  induction count with
  | zero =>
    obtain rfl : done = 0 := by omega
    exact hleft
  | succ count ih =>
    rcases Nat.lt_or_ge count done with hlt | hge
    · obtain rfl : done = count + 1 := by omega
      exact hleft
    · rw [leavingLoop, ih hge]

end Leaving

end Colix.Foundation
