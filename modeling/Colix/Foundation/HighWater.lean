import Mathlib.Data.List.Infix
import Mathlib.Data.List.Nodup

/-!
# High-water marks

Events take a resource or give one back. `outstanding` is how many are out after a history, and
`peak` the most that were out at any time in it. `countP_succ_of_change` counts the members of a
list that are out when one of them changes.
-/

set_option autoImplicit false
set_option relaxedAutoImplicit false

namespace Colix.Foundation

variable {Event Member : Type*} {takes gives : Event → Bool} {events : List Event} {event : Event}

/-- How many of what the events took they have not given back. -/
def outstanding (takes gives : Event → Bool) (events : List Event) : ℕ :=
  events.countP takes - events.countP gives

/-- The most that were out at any time. -/
def peak (takes gives : Event → Bool) (events : List Event) : ℕ :=
  (events.inits.map (outstanding takes gives)).foldr max 0

/-- One more event. -/
theorem peak_append_singleton (events : List Event) (event : Event) :
    peak takes gives (events ++ [event]) =
      max (peak takes gives events) (outstanding takes gives (events ++ [event])) := by
  have hfold : ∀ (counts : List ℕ) (last : ℕ),
      (counts ++ [last]).foldr max 0 = max (counts.foldr max 0) last := by
    intro counts last
    induction counts with
    | nil => exact max_comm last 0
    | cons count counts ih => rw [List.cons_append, List.foldr_cons, ih, List.foldr_cons, max_assoc]
  rw [peak, List.inits_append]
  simp only [List.inits, List.tail_cons, List.map_cons, List.map_nil, List.map_append]
  exact hfold _ _

/-- No more are out than at the peak. -/
theorem outstanding_le_peak (events : List Event) :
    outstanding takes gives events ≤ peak takes gives events := by
  induction events using List.reverseRecOn with
  | nil => exact Nat.zero_le _
  | append_singleton events event _ =>
    rw [peak_append_singleton]
    exact le_max_right _ _

/-- The count of one kind of events after one more. -/
theorem countP_append_event {kind : Event → Bool} {value : Bool} (events : List Event)
    (hkind : kind event = value) :
    (events ++ [event]).countP kind = events.countP kind + value.toNat := by
  rw [List.countP_append, List.countP_singleton, hkind]
  cases value <;> rfl

/-- One more counts when one member that did not comes to count and the others stay. -/
theorem countP_succ_of_change {before after : Member → Bool} {members : List Member}
    {member : Member} (hnodup : members.Nodup) (hmem : member ∈ members)
    (hbefore : before member = false) (hafter : after member = true)
    (hothers : ∀ other ∈ members, other ≠ member → after other = before other) :
    members.countP after = members.countP before + 1 := by
  classical
  have hperm := List.perm_cons_erase hmem
  have hrest : (members.erase member).countP after = (members.erase member).countP before := by
    refine List.countP_congr fun other hother ↦ ?_
    have hne := (hnodup.mem_erase_iff.mp hother).1
    rw [hothers other (List.mem_of_mem_erase hother) hne]
  rw [hperm.countP_eq, hperm.countP_eq, List.countP_cons_of_pos hafter,
    List.countP_cons_of_neg (by rw [hbefore]; exact Bool.false_ne_true), hrest]

end Colix.Foundation
