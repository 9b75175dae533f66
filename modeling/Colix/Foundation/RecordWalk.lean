import Mathlib.Tactic.Common

/-!
# Walks along records

A walk goes from one record to the next until there is none. `placeAt next first n` is the place of
the record number `n`, counted from 0.
-/

set_option autoImplicit false
set_option relaxedAutoImplicit false

namespace Colix.Foundation

variable {Place : Type*} {next : Place → Option Place} {first second place : Place}

/-- The place of a record of the walk, or none when the walk ends before it. -/
def placeAt (next : Place → Option Place) (first : Place) : ℕ → Option Place
  | 0 => some first
  | number + 1 => (placeAt next first number).bind next

@[simp] theorem placeAt_zero : placeAt next first 0 = some first :=
  rfl

/-- The walk from the second record on. -/
theorem placeAt_succ (hnext : next first = some second) (number : ℕ) :
    placeAt next first (number + 1) = placeAt next second number := by
  induction number with
  | zero => exact hnext
  | succ number ih => rw [placeAt, ih, placeAt]

/-- A walk that ends at its first record. -/
theorem placeAt_succ_of_none (hnext : next first = none) (number : ℕ) :
    placeAt next first (number + 1) = none := by
  induction number with
  | zero => exact hnext
  | succ number ih => rw [placeAt, ih, Option.bind_none]

/-- What holds of the first record and passes from each to the next holds of every record. -/
theorem placeAt_rule {motive : Place → Prop} (hfirst : motive first)
    (hstep : ∀ place later, motive place → next place = some later → motive later) {number : ℕ}
    (hplace : placeAt next first number = some place) : motive place := by
  induction number generalizing place with
  | zero =>
    cases hplace
    exact hfirst
  | succ number ih =>
    rw [placeAt, Option.bind_eq_some_iff] at hplace
    obtain ⟨before, hbefore, hnext⟩ := hplace
    exact hstep before place (ih hbefore) hnext

end Colix.Foundation
