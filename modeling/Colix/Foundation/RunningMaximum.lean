import Mathlib.Order.Lattice

/-!
# Running maxima

A scan that starts from a value and replaces it by each item that counts and is strictly larger. It
ends with the first of the largest items that count, or with the value it started from when no item
that counts is larger than that.
-/

set_option autoImplicit false
set_option relaxedAutoImplicit false

namespace Colix.Foundation

variable {Item Best Key : Type*} [LinearOrder Key]

/-- The first of the largest items that count. -/
def FirstMaximum (counts : Item → Prop) (measure : Item → Key) (items : List Item)
    (item : Item) : Prop :=
  ∃ before after, items = before ++ item :: after ∧ counts item ∧
    (∀ other ∈ before, counts other → measure other < measure item) ∧
      ∀ other ∈ after, counts other → measure other ≤ measure item

/-- A step takes an item that counts and is larger than the best so far, and no other. -/
structure RunningMaximum (counts : Item → Prop) (result : Item → Best) (size : Best → Key)
    (keep : Best → Item → Best) : Prop where
  taken : ∀ best item, counts item → size best < size (result item) → keep best item = result item
  left : ∀ best item, ¬ (counts item ∧ size best < size (result item)) → keep best item = best

section FirstMaximum

variable {counts fewer : Item → Prop} {measure : Item → Key} {items : List Item}
  {item first : Item}

theorem FirstMaximum.mem (hfirst : FirstMaximum counts measure items item) : item ∈ items := by
  obtain ⟨before, after, rfl, -⟩ := hfirst
  exact List.mem_append_right before List.mem_cons_self

theorem FirstMaximum.item_counts (hfirst : FirstMaximum counts measure items item) :
    counts item := by
  obtain ⟨-, -, -, hcounts, -⟩ := hfirst
  exact hcounts

/-- No item that counts is larger. -/
theorem FirstMaximum.le (hfirst : FirstMaximum counts measure items item) {other : Item}
    (hmem : other ∈ items) (hother : counts other) : measure other ≤ measure item := by
  obtain ⟨before, after, rfl, -, hbefore, hafter⟩ := hfirst
  rcases List.mem_append.mp hmem with hmem | hmem
  · exact (hbefore other hmem hother).le
  · rcases List.mem_cons.mp hmem with rfl | hmem
    · exact le_rfl
    · exact hafter other hmem hother

/-- It is the first among fewer items too, when it is one of them. -/
theorem FirstMaximum.mono (hfirst : FirstMaximum counts measure items item)
    (hfewer : ∀ other, fewer other → counts other) (hitem : fewer item) :
    FirstMaximum fewer measure items item := by
  obtain ⟨before, after, hitems, -, hbefore, hafter⟩ := hfirst
  exact ⟨before, after, hitems, hitem,
    fun other hmem hother ↦ hbefore other hmem (hfewer other hother),
    fun other hmem hother ↦ hafter other hmem (hfewer other hother)⟩

/-- The first of the largest is the first item when no other is larger. -/
theorem FirstMaximum.head (hfirst : counts first)
    (hrest : ∀ other ∈ items, counts other → measure other ≤ measure first) :
    FirstMaximum counts measure (first :: items) first :=
  ⟨[], items, rfl, hfirst, fun _ hmem ↦ absurd hmem List.not_mem_nil, hrest⟩

/-- An item that is not as large in front changes nothing. -/
theorem FirstMaximum.cons (hitem : FirstMaximum counts measure items item)
    (hsmaller : counts first → measure first < measure item) :
    FirstMaximum counts measure (first :: items) item := by
  obtain ⟨before, after, rfl, hcounts, hbefore, hafter⟩ := hitem
  refine ⟨first :: before, after, rfl, hcounts, ?_, hafter⟩
  rw [List.forall_mem_cons]
  exact ⟨hsmaller, hbefore⟩

end FirstMaximum

section Scan

variable {counts : Item → Prop} {result : Item → Best} {size : Best → Key}
  {keep : Best → Item → Best}

/-- The end of the scan: the value it started from, or the first of the largest items. -/
theorem RunningMaximum.foldl (hkeep : RunningMaximum counts result size keep) (items : List Item)
    (best : Best) :
    (items.foldl keep best = best ∧
        ∀ item ∈ items, counts item → size (result item) ≤ size best) ∨
      ∃ item, FirstMaximum counts (size ∘ result) items item ∧ size best < size (result item) ∧
        items.foldl keep best = result item := by
  induction items generalizing best with
  | nil => exact Or.inl ⟨rfl, fun _ hmem ↦ absurd hmem List.not_mem_nil⟩
  | cons first items ih =>
    rw [List.foldl_cons]
    by_cases htake : counts first ∧ size best < size (result first)
    · rw [hkeep.taken best first htake.1 htake.2]
      right
      rcases ih (result first) with ⟨hsame, hmax⟩ | ⟨item, hitem, hlarger, hend⟩
      · exact ⟨first, FirstMaximum.head htake.1 hmax, htake.2, hsame⟩
      · exact ⟨item, hitem.cons fun _ ↦ hlarger, htake.2.trans hlarger, hend⟩
    · have hnot : counts first → size (result first) ≤ size best := fun hcounts ↦
        not_lt.mp fun hlt ↦ htake ⟨hcounts, hlt⟩
      rw [hkeep.left best first htake]
      rcases ih best with ⟨hsame, hmax⟩ | ⟨item, hitem, hlarger, hend⟩
      · exact Or.inl ⟨hsame, List.forall_mem_cons.mpr ⟨hnot, hmax⟩⟩
      · exact Or.inr ⟨item, hitem.cons fun hcounts ↦ (hnot hcounts).trans_lt hlarger, hlarger, hend⟩

end Scan

end Colix.Foundation
