import Colix.Foundation.RadixTree
import Mathlib.Data.List.Nodup

/-!
# Postorder of a radix tree

The tables of a radix tree, each after the tables below it. A walk tries given indices at each
level, and no level below the last. It meets the tables that such paths reach (`mem_postorder`),
each once when the store is a tree (`nodup_postorder`).
-/

set_option autoImplicit false
set_option relaxedAutoImplicit false

namespace Colix.Foundation

variable {Table Index Entry : Type*} {child : Entry → Option Table}
  {entries : Table → Index → Entry} {root table : Table} {path : List Index} {index : Index}
  {levels : List (List Index)}

/-- The tables at and below a root, each after those below it, by the indices to try at each
level. -/
def postorder (child : Entry → Option Table) (entries : Table → Index → Entry) :
    List (List Index) → Table → List Table
  | [], root => [root]
  | indices :: levels, root =>
    (indices.flatMap fun index ↦
      (child (entries root index)).elim [] fun table ↦ postorder child entries levels table) ++
        [root]

/-- The path takes an index of each level. -/
def Follows : List Index → List (List Index) → Prop
  | [], _ => True
  | _ :: _, [] => False
  | index :: path, indices :: levels => index ∈ indices ∧ Follows path levels

theorem Follows.length_le (hfollows : Follows path levels) : path.length ≤ levels.length := by
  induction path generalizing levels with
  | nil => exact Nat.zero_le _
  | cons index path ih =>
    cases levels with
    | nil => exact hfollows.elim
    | cons indices levels => exact Nat.succ_le_succ (ih hfollows.2)

/-- The tables below an entry that has a child. -/
theorem descend_cons_of_child (hchild : child (entries root index) = some table) :
    descend child entries root (index :: path) = descend child entries table path := by
  rw [descend, hchild]

theorem descend_cons_of_empty (hempty : child (entries root index) = none) :
    descend child entries root (index :: path) = none := by
  rw [descend, hempty]

/-- What is below a table of a tree is a tree. -/
theorem IsTree.below {depth : ℕ} (htree : IsTree child entries (depth + 1) root)
    (hchild : child (entries root index) = some table) : IsTree child entries depth table := by
  intro first second reached hfirst hsecond hreachFirst hreachSecond
  rw [← descend_cons_of_child hchild] at hreachFirst hreachSecond
  exact (List.cons.inj (htree (index :: first) (index :: second) reached (Nat.succ_le_succ hfirst)
    (Nat.succ_le_succ hsecond) hreachFirst hreachSecond)).2

/-- The walk meets the tables that its paths reach. -/
theorem mem_postorder : table ∈ postorder child entries levels root ↔
    ∃ path, Follows path levels ∧ descend child entries root path = some table := by
  induction levels generalizing root with
  | nil =>
    rw [postorder, List.mem_singleton]
    constructor
    · rintro rfl
      exact ⟨[], trivial, rfl⟩
    · rintro ⟨_ | ⟨index, path⟩, hfollows, hreach⟩
      · exact (Option.some.inj hreach).symm
      · exact hfollows.elim
  | cons indices levels ih =>
    rw [postorder, List.mem_append, List.mem_singleton, List.mem_flatMap]
    constructor
    · rintro (⟨index, hindex, hmem⟩ | rfl)
      · cases hchild : child (entries root index) with
        | none => simp [hchild] at hmem
        | some below =>
          rw [hchild] at hmem
          obtain ⟨path, hfollows, hreach⟩ := ih.mp hmem
          exact ⟨index :: path, ⟨hindex, hfollows⟩, (descend_cons_of_child hchild).trans hreach⟩
      · exact ⟨[], trivial, rfl⟩
    · rintro ⟨_ | ⟨index, path⟩, hfollows, hreach⟩
      · exact Or.inr (Option.some.inj hreach).symm
      · left
        refine ⟨index, hfollows.1, ?_⟩
        cases hchild : child (entries root index) with
        | none =>
          rw [descend_cons_of_empty hchild] at hreach
          cases hreach
        | some below =>
          rw [descend_cons_of_child hchild] at hreach
          exact ih.mpr ⟨path, hfollows.2, hreach⟩

/-- The walk meets no table of a tree twice. -/
theorem nodup_postorder (hlevels : ∀ indices ∈ levels, indices.Nodup)
    (htree : IsTree child entries levels.length root) :
    (postorder child entries levels root).Nodup := by
  induction levels generalizing root with
  | nil => exact List.nodup_singleton root
  | cons indices levels ih =>
    obtain ⟨hindices, hbelow⟩ := List.forall_mem_cons.mp hlevels
    -- what is met below an index is reached by a path through it
    have hpath : ∀ index reached,
        reached ∈ (child (entries root index)).elim [] (postorder child entries levels) →
          ∃ path, path.length ≤ levels.length ∧
            descend child entries root (index :: path) = some reached := by
      intro index reached hmem
      cases hchild : child (entries root index) with
      | none => simp [hchild] at hmem
      | some table =>
        rw [hchild] at hmem
        obtain ⟨path, hfollows, hreach⟩ := mem_postorder.mp hmem
        exact ⟨path, hfollows.length_le, (descend_cons_of_child hchild).trans hreach⟩
    rw [postorder, List.nodup_append', List.nodup_flatMap]
    refine ⟨⟨fun index _ ↦ ?_, ?_⟩, List.nodup_singleton root, ?_⟩
    · cases hchild : child (entries root index) with
      | none => exact List.nodup_nil
      | some table => exact ih hbelow (htree.below hchild)
    · refine hindices.imp fun {first second} hne ↦ List.disjoint_left.mpr ?_
      intro reached hfirst hsecond
      obtain ⟨firstPath, hfirstLength, hfirstReach⟩ := hpath first reached hfirst
      obtain ⟨secondPath, hsecondLength, hsecondReach⟩ := hpath second reached hsecond
      exact hne (List.cons.inj (htree _ _ reached (Nat.succ_le_succ hfirstLength)
        (Nat.succ_le_succ hsecondLength) hfirstReach hsecondReach)).1
    · rw [List.disjoint_singleton]
      intro hmem
      obtain ⟨index, -, hreached⟩ := List.mem_flatMap.mp hmem
      obtain ⟨path, hlength, hreach⟩ := hpath index root hreached
      exact List.cons_ne_nil _ _
        (htree _ [] root (Nat.succ_le_succ hlength) (Nat.zero_le _) hreach rfl)

end Colix.Foundation
