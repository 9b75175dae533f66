import Mathlib.Data.List.Basic
import Mathlib.Tactic.Common

/-!
# Cyclic scans

A next-fit search visits the indices below `count` in cyclic order from a starting index and stops
at the first accepted one. `cyclicFind_eq_none_iff` is coverage: the scan fails only when no index
is accepted. `cyclicFind_eq_some` gives the index found together with the indices passed over.
`cyclicSteps` is the distance between two indices going round; a scan that begins behind an index
moves no further from it than to any accepted index (`cyclicFind_steps_le`).
-/

set_option autoImplicit false
set_option relaxedAutoImplicit false

namespace Colix.Foundation

variable {count start index : ℕ} {accept : ℕ → Bool}

/-- The first accepted index at or after `start`, in cyclic order on the indices below `count`. -/
def cyclicFind (count start : ℕ) (accept : ℕ → Bool) : Option ℕ :=
  ((List.range count).map fun offset ↦ (start + offset) % count).find? accept

/-- Every index below `count` is met by a full turn, wherever the turn starts. -/
theorem exists_offset_of_lt (start : ℕ) (hindex : index < count) :
    ∃ offset < count, (start + offset) % count = index := by
  have hcount : 0 < count := by omega
  have hstart := Nat.mod_lt start hcount
  rw [← Nat.mod_eq_of_lt hindex]
  by_cases hle : start % count ≤ index
  · refine ⟨index - start % count, by omega, ?_⟩
    rw [← Nat.mod_add_mod, Nat.add_sub_cancel' hle]
  · refine ⟨index + count - start % count, by omega, ?_⟩
    rw [← Nat.mod_add_mod, Nat.add_sub_cancel' (by omega), Nat.add_mod_right]

/-- Coverage: the scan finds nothing exactly when no index below `count` is accepted. -/
theorem cyclicFind_eq_none_iff :
    cyclicFind count start accept = none ↔ ∀ index < count, accept index = false := by
  simp only [cyclicFind, List.find?_eq_none, List.mem_map, List.mem_range, Bool.not_eq_true]
  constructor
  · intro hnone index hindex
    obtain ⟨offset, hoffset, rfl⟩ := exists_offset_of_lt start hindex
    exact hnone _ ⟨offset, hoffset, rfl⟩
  · rintro hall _ ⟨offset, hoffset, rfl⟩
    exact hall _ (Nat.mod_lt _ (by omega))

/-- The index found is accepted, and every index met before it is not. -/
theorem cyclicFind_eq_some (hfind : cyclicFind count start accept = some index) :
    accept index = true ∧ ∃ offset < count, (start + offset) % count = index ∧
      ∀ earlier < offset, accept ((start + earlier) % count) = false := by
  rw [cyclicFind, List.find?_map, Option.map_eq_some_iff] at hfind
  obtain ⟨offset, hoffset, rfl⟩ := hfind
  obtain ⟨haccept, hmem, hearlier⟩ := List.find?_range_eq_some.mp hoffset
  refine ⟨haccept, offset, List.mem_range.mp hmem, rfl, fun earlier hlt ↦ ?_⟩
  simpa using hearlier earlier hlt

/-- The index found is in range. -/
theorem cyclicFind_lt (hfind : cyclicFind count start accept = some index) : index < count := by
  obtain ⟨-, offset, hoffset, rfl, -⟩ := cyclicFind_eq_some hfind
  exact Nat.mod_lt _ (by omega)

/-- The index found is accepted. -/
theorem cyclicFind_accept (hfind : cyclicFind count start accept = some index) :
    accept index = true :=
  (cyclicFind_eq_some hfind).1

/-! ### Distances -/

/-- The steps from an index to another going round: one to the next, a full turn to itself. -/
def cyclicSteps (count first last : ℕ) : ℕ :=
  if first < last then last - first else last + count - first

section Steps

variable {first middle last other : ℕ}

/-- Another index is less than a full turn away. -/
theorem cyclicSteps_lt_self (hlast : last < count) (hne : last ≠ first) :
    cyclicSteps count first last < cyclicSteps count first first := by
  rw [cyclicSteps, cyclicSteps]
  split_ifs <;> omega

/-- Indices at the same distance are the same. -/
theorem cyclicSteps_inj (hfirst : first < count) (hlast : last < count) (hother : other < count)
    (heq : cyclicSteps count first last = cyclicSteps count first other) : last = other := by
  rw [cyclicSteps, cyclicSteps] at heq
  split_ifs at heq <;> omega

/-- An index passed on the way is that much nearer to the end of it. -/
theorem cyclicSteps_sub (hfirst : first < count) (hmiddle : middle < count) (hlast : last < count)
    (hlt : cyclicSteps count first middle < cyclicSteps count first last) :
    cyclicSteps count middle last =
      cyclicSteps count first last - cyclicSteps count first middle := by
  rw [cyclicSteps, cyclicSteps] at hlt ⊢
  rw [cyclicSteps]
  split_ifs at hlt ⊢ <;> omega

/-- The scan that begins behind an index passes over no accepted one. -/
theorem cyclicFind_steps_le (hstart : start < count) (hother : other < count)
    (hfind : cyclicFind count (start + 1) accept = some index) (haccept : accept other = true) :
    cyclicSteps count start index ≤ cyclicSteps count start other := by
  obtain ⟨-, offset, hoffset, hindex, hearlier⟩ := cyclicFind_eq_some hfind
  obtain ⟨before, hbefore, hmet⟩ := exists_offset_of_lt (start + 1) hother
  have hsteps : ∀ found turned, turned < count → (start + 1 + turned) % count = found →
      cyclicSteps count start found = turned + 1 := by
    intro found turned hturned hfound
    by_cases hwrap : start + 1 + turned < count
    · rw [Nat.mod_eq_of_lt hwrap] at hfound
      rw [cyclicSteps, if_pos (by omega)]
      omega
    · rw [Nat.mod_eq_sub_mod (by omega), Nat.mod_eq_of_lt (by omega)] at hfound
      rw [cyclicSteps, if_neg (by omega)]
      omega
  rw [hsteps index offset hoffset hindex, hsteps other before hbefore hmet]
  by_contra hlt
  have hreject := hearlier before (by omega)
  rw [hmet, haccept] at hreject
  cases hreject

end Steps

end Colix.Foundation
