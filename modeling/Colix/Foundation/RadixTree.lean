import Mathlib.Data.List.Basic
import Mathlib.Data.List.Induction
import Mathlib.Tactic.Common

/-!
# Radix trees in a store of tables

A store gives every table its entries; an entry may point to a child. `descend` follows a path of
indices from a root, so the tables of the tree at depth `n` are those reached by paths of length
`n`, and what a path one longer than the tree is deep reaches is the value stored under it.
`IsTree` says that no two paths reach one table.

The rules are frame rules: `descend_congr` for changes off the tree, `IsTree.descend_update` for a
change of one entry of it, with `IsTree.descend_leaf` for an entry of a leaf table and
`IsTree.descend_link` for hanging a fresh table under an empty entry. They are stated by what the
entries read afterwards.
-/

set_option autoImplicit false
set_option relaxedAutoImplicit false

namespace Colix.Foundation

variable {Table Index Entry : Type*} {child : Entry → Option Table}
  {entries next : Table → Index → Entry} {root table fresh : Table} {depth : ℕ}
  {path leafPath : List Index} {index : Index}

/-- The table reached from a root along a path of indices. -/
def descend (child : Entry → Option Table) (entries : Table → Index → Entry) :
    Table → List Index → Option Table
  | root, [] => some root
  | root, index :: path =>
    match child (entries root index) with
    | some table => descend child entries table path
    | none => none

/-- A path followed in two parts. -/
theorem descend_append (first second : List Index) :
    descend child entries root (first ++ second) =
      (descend child entries root first).bind fun table ↦ descend child entries table second := by
  induction first generalizing root with
  | nil => rfl
  | cons index first ih =>
    rw [List.cons_append, descend, descend]
    cases child (entries root index) with
    | none => rfl
    | some table => exact ih

/-- A path followed up to its last index. -/
theorem descend_snoc (path : List Index) (index : Index) :
    descend child entries root (path ++ [index]) =
      (descend child entries root path).bind fun table ↦ child (entries table index) := by
  rw [descend_append]
  congr 1
  funext table
  rw [descend]
  cases child (entries table index) <;> rfl

/-- A path that ends at a table passes through a table at each of its prefixes. -/
theorem exists_descend_of_snoc
    (hreach : descend child entries root (path ++ [index]) = some table) :
    ∃ parent, descend child entries root path = some parent ∧
      child (entries parent index) = some table := by
  rw [descend_snoc, Option.bind_eq_some_iff] at hreach
  exact hreach

/-- Frame rule: a path reads only the tables at its proper prefixes. -/
theorem descend_congr {length : ℕ}
    (hagree : ∀ path table, path.length < length → descend child entries root path = some table →
      ∀ index, child (next table index) = child (entries table index)) :
    ∀ path : List Index, path.length ≤ length →
      descend child next root path = descend child entries root path := by
  intro path
  induction path using List.reverseRecOn with
  | nil => exact fun _ ↦ rfl
  | append_singleton path index ih =>
    intro hlength
    rw [List.length_append, List.length_singleton] at hlength
    rw [descend_snoc, descend_snoc, ih (by omega)]
    cases hreach : descend child entries root path with
    | none => rfl
    | some table => exact hagree path table (by omega) hreach index

/-- No two paths of at most `depth` indices reach one table. -/
def IsTree (child : Entry → Option Table) (entries : Table → Index → Entry) (depth : ℕ)
    (root : Table) : Prop :=
  ∀ first second table, first.length ≤ depth → second.length ≤ depth →
    descend child entries root first = some table →
      descend child entries root second = some table → first = second

/-- The table is reached from the root by a path of at most `depth` indices. -/
def Reaches (child : Entry → Option Table) (entries : Table → Index → Entry) (depth : ℕ)
    (root table : Table) : Prop :=
  ∃ path : List Index, path.length ≤ depth ∧ descend child entries root path = some table

/-- Frame rule: a root that does not reach a table does not see a change of it. -/
theorem descend_of_not_reaches
    (hagree : ∀ other, Reaches child entries depth root other → other ≠ table →
      ∀ index, next other index = entries other index)
    (hnot : ¬ Reaches child entries depth root table) :
    ∀ path : List Index, path.length ≤ depth + 1 →
      descend child next root path = descend child entries root path := by
  refine descend_congr fun path reached hshort hreached index ↦ ?_
  have hreaches : Reaches child entries depth root reached := ⟨path, by omega, hreached⟩
  rw [hagree reached hreaches]
  rintro rfl
  exact hnot hreaches

/-- A tree that the same paths descend is a tree. -/
theorem IsTree.congr (htree : IsTree child entries depth root)
    (hsame : ∀ path : List Index, path.length ≤ depth →
      descend child next root path = descend child entries root path) :
    IsTree child next depth root := by
  intro first second table hfirst hsecond hreachFirst hreachSecond
  rw [hsame first hfirst] at hreachFirst
  rw [hsame second hsecond] at hreachSecond
  exact htree first second table hfirst hsecond hreachFirst hreachSecond

section Restricted

variable {restricted : Entry → Option Table}
  (hsub : ∀ entry table, restricted entry = some table → child entry = some table)

include hsub

/-- A descent that refuses some of the entries goes the same way as one that does not. -/
theorem descend_of_restricted (hreach : descend restricted entries root path = some table) :
    descend child entries root path = some table := by
  induction path generalizing root with
  | nil => exact hreach
  | cons index path ih =>
    rw [descend] at hreach ⊢
    cases hchild : restricted (entries root index) with
    | none =>
      rw [hchild] at hreach
      cases hreach
    | some target =>
      rw [hchild] at hreach
      rw [hsub _ _ hchild]
      exact ih hreach

variable (htree : IsTree child entries depth root)
  (hreach : descend child entries root path = some table)
  (hframe : ∀ other, other ≠ index → next table other = entries table other)
  (hagree : ∀ other, Reaches child entries depth root other → other ≠ table →
    ∀ index, next other index = entries other index)

include htree hreach hframe hagree

/-- Changing one entry of a table of the tree changes only the paths that pass through the entry,
also for a descent that refuses some of the entries. -/
theorem IsTree.restricted_update (hlength : path.length ≤ depth) :
    ∀ other : List Index, other.length ≤ depth + 1 → ¬ path ++ [index] <+: other →
      descend restricted next root other = descend restricted entries root other := by
  intro other
  induction other using List.reverseRecOn with
  | nil => exact fun _ _ ↦ rfl
  | append_singleton before last ih =>
    intro hother hnot
    rw [List.length_append, List.length_singleton] at hother
    have hbefore := ih (by omega) fun hthrough ↦ hnot (hthrough.trans (List.prefix_append _ _))
    rw [descend_snoc, hbefore, descend_snoc]
    cases hrestricted : descend restricted entries root before with
    | none => rfl
    | some parent =>
      have hparent := descend_of_restricted hsub hrestricted
      rw [Option.bind_some, Option.bind_some]
      by_cases htable : parent = table
      · subst htable
        obtain rfl := htree before path parent (by omega) hlength hparent hreach
        rw [hframe last]
        rintro rfl
        exact hnot List.prefix_rfl
      · rw [hagree parent ⟨before, by omega, hparent⟩ htable]

/-- Changing an empty entry into one that leads nowhere further changes what is reached at its own
path only, also for a descent that refuses some of the entries. -/
theorem IsTree.restricted_barren (hlength : path.length ≤ depth)
    (hempty : child (entries table index) = none)
    (hbarren : ∀ fresh, child (next table index) = some fresh →
      ∀ index, child (next fresh index) = none)
    {other : List Index} (hother : other.length ≤ depth + 1) (hne : other ≠ path ++ [index]) :
    descend restricted next root other = descend restricted entries root other := by
  by_cases hthrough : path ++ [index] <+: other
  · obtain ⟨_ | ⟨first, rest⟩, rfl⟩ := hthrough
    · exact absurd (List.append_nil _) hne
    · have hnone : ∀ entry, child entry = none → restricted entry = none := by
        intro entry hentry
        cases hsome : restricted entry with
        | none => rfl
        | some target => rw [hsub entry target hsome] at hentry; cases hentry
      have hpath := IsTree.restricted_update hsub htree hreach hframe hagree hlength path
        (by omega) fun hthrough ↦ by
          have hle := hthrough.length_le
          rw [List.length_append, List.length_singleton] at hle
          omega
      rw [List.append_assoc, descend_append, hpath, descend_append, List.singleton_append]
      cases hreached : descend restricted entries root path with
      | none => rfl
      | some reached =>
        obtain rfl : table = reached :=
          Option.some.inj (hreach.symm.trans (descend_of_restricted hsub hreached))
        rw [Option.bind_some, Option.bind_some, descend, descend, hnone _ hempty]
        cases hfresh : restricted (next table index) with
        | none => rfl
        | some fresh =>
          change descend restricted next fresh (first :: rest) = none
          rw [descend, hnone _ (hbarren fresh (hsub _ _ hfresh) first)]
  · exact IsTree.restricted_update hsub htree hreach hframe hagree hlength other hother hthrough

end Restricted

/-- Changing one entry of a table of the tree changes only the paths that pass through the entry. -/
theorem IsTree.descend_update (htree : IsTree child entries depth root)
    (hreach : descend child entries root path = some table) (hlength : path.length ≤ depth)
    (hframe : ∀ other, other ≠ index → next table other = entries table other)
    (hagree : ∀ other, Reaches child entries depth root other → other ≠ table →
      ∀ index, next other index = entries other index) :
    ∀ other : List Index, other.length ≤ depth + 1 → ¬ path ++ [index] <+: other →
      descend child next root other = descend child entries root other :=
  htree.restricted_update (fun _ _ h ↦ h) hreach hframe hagree hlength

/-- Changing one entry of a leaf table changes no path that stops at a table. -/
theorem IsTree.descend_leaf (htree : IsTree child entries depth root)
    (hleaf : descend child entries root leafPath = some table) (hlength : leafPath.length = depth)
    (hframe : ∀ other, other ≠ index → next table other = entries table other)
    (hagree : ∀ other, Reaches child entries depth root other → other ≠ table →
      ∀ index, next other index = entries other index) :
    ∀ path : List Index, path.length ≤ depth →
      descend child next root path = descend child entries root path := by
  intro path hpath
  refine htree.descend_update hleaf (by omega) hframe hagree path (by omega) fun hthrough ↦ ?_
  have hle := hthrough.length_le
  rw [List.length_append, List.length_singleton] at hle
  omega

/-- What the paths that end in a value reach after one entry of a leaf table changes. -/
theorem IsTree.descend_leaf_value [DecidableEq Index] (htree : IsTree child entries depth root)
    (hleaf : descend child entries root leafPath = some table) (hlength : leafPath.length = depth)
    {entry : Entry} (hset : next table index = entry)
    (hframe : ∀ other, other ≠ index → next table other = entries table other)
    (hagree : ∀ other, Reaches child entries depth root other → other ≠ table →
      ∀ index, next other index = entries other index) :
    ∀ path : List Index, path.length = depth + 1 → descend child next root path =
      if path = leafPath ++ [index] then child entry else descend child entries root path := by
  intro path hpath
  by_cases heq : path = leafPath ++ [index]
  · rw [if_pos heq, heq, descend_snoc, htree.descend_leaf hleaf hlength hframe hagree _ (by omega),
      hleaf, Option.bind_some, hset]
  · rw [if_neg heq]
    refine htree.descend_update hleaf (by omega) hframe hagree path (by omega) fun hthrough ↦ heq ?_
    exact (hthrough.eq_of_length (by rw [List.length_append, List.length_singleton]; omega)).symm

/-- What every path reaches after a fresh table is hung under an empty entry. The entries of the
fresh table are empty, unless it is a leaf table. -/
theorem IsTree.descend_link [DecidableEq Index] (htree : IsTree child entries depth root)
    (hreach : descend child entries root path = some table)
    (hempty : child (entries table index) = none) (hlength : path.length < depth)
    (hset : child (next table index) = some fresh)
    (hframe : ∀ other, other ≠ index → next table other = entries table other)
    (hagree : ∀ other, Reaches child entries depth root other → other ≠ table →
      ∀ index, next other index = entries other index)
    {length : ℕ} (hbound : length ≤ depth + 1)
    (hclean : path.length + 1 < length → ∀ index, child (next fresh index) = none) :
    ∀ other : List Index, other.length ≤ length → descend child next root other =
      if other = path ++ [index] then some fresh else descend child entries root other := by
  have hpath : descend child next root path = some table := by
    rw [htree.descend_update hreach (by omega) hframe hagree path (by omega), hreach]
    intro hthrough
    have hle := hthrough.length_le
    rw [List.length_append, List.length_singleton] at hle
    omega
  have hfresh : descend child next root (path ++ [index]) = some fresh := by
    rw [descend_snoc, hpath, Option.bind_some, hset]
  intro other hother
  by_cases hthrough : path ++ [index] <+: other
  · obtain ⟨rest, rfl⟩ := hthrough
    rcases rest with _ | ⟨first, rest⟩
    · rw [List.append_nil, if_pos rfl, hfresh]
    · -- below the fresh table there is nothing, and before the link there was nothing either
      have hne : path ++ [index] ++ first :: rest ≠ path ++ [index] := by simp
      have hbelow : descend child entries root (path ++ [index]) = none := by
        rw [descend_snoc, hreach, Option.bind_some, hempty]
      simp only [List.length_append, List.length_cons, List.length_nil] at hother
      rw [if_neg hne, descend_append, hfresh, descend_append, hbelow, Option.bind_some,
        Option.bind_none, descend, hclean (by omega)]
  · rw [if_neg fun heq : other = path ++ [index] ↦ hthrough (heq ▸ List.prefix_rfl)]
    exact htree.descend_update hreach (by omega) hframe hagree other (by omega) hthrough

/-- Hanging a fresh table under an empty entry keeps the tree. -/
theorem IsTree.link [DecidableEq Index] (htree : IsTree child entries depth root)
    (hfresh : ¬ Reaches child entries depth root fresh)
    (hlink : ∀ other : List Index, other.length ≤ depth → descend child next root other =
      if other = path ++ [index] then some fresh else descend child entries root other) :
    IsTree child next depth root := by
  intro first second reached hfirst hsecond hreachFirst hreachSecond
  rw [hlink first hfirst] at hreachFirst
  rw [hlink second hsecond] at hreachSecond
  by_cases hnewFirst : first = path ++ [index]
  · rw [if_pos hnewFirst, Option.some.injEq] at hreachFirst
    by_cases hnewSecond : second = path ++ [index]
    · rw [hnewFirst, hnewSecond]
    · rw [if_neg hnewSecond, ← hreachFirst] at hreachSecond
      exact absurd ⟨second, hsecond, hreachSecond⟩ hfresh
  · rw [if_neg hnewFirst] at hreachFirst
    by_cases hnewSecond : second = path ++ [index]
    · rw [if_pos hnewSecond, Option.some.injEq] at hreachSecond
      rw [← hreachSecond] at hreachFirst
      exact absurd ⟨first, hfirst, hreachFirst⟩ hfresh
    · rw [if_neg hnewSecond] at hreachSecond
      exact htree first second reached hfirst hsecond hreachFirst hreachSecond

end Colix.Foundation
