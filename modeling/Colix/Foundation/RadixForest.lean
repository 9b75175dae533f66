import Colix.Foundation.RadixTree

/-!
# Radix trees that share slots

Several roots in one store of tables. Two roots *share* a slot when it holds the same table in both,
and then have the same tables below it. `IsForest` says that roots have no table in common besides
those, and that each root is the root of a tree.

`IsForest.descend_other` is the frame rule for the other roots: a change of a table that a root
reaches outside the slots it shares with another is not seen from there. `IsForest.descend_update`
is the frame rule for all roots at once, `IsForest.link` and `IsForest.leaf` are the two changes
that keep the forest, and `IsForest.insert_copy` adds a root that copies slots of another.
-/

set_option autoImplicit false
set_option relaxedAutoImplicit false

namespace Colix.Foundation

variable {Table Index Entry : Type*} {child : Entry → Option Table}
  {entries next : Table → Index → Entry} {roots : Table → Prop}
  {root other first second table fresh : Table} {depth : ℕ} {path : List Index} {index : Index}

/-- Two roots have the same table in a slot. -/
def SharesSlot (child : Entry → Option Table) (entries : Table → Index → Entry)
    (first second : Table) (index : Index) : Prop :=
  ∃ table, child (entries first index) = some table ∧ child (entries second index) = some table

theorem SharesSlot.symm (hshares : SharesSlot child entries first second index) :
    SharesSlot child entries second first index :=
  hshares.imp fun _ ↦ And.symm

/-- The path starts with a slot that two roots share. -/
def Shared (child : Entry → Option Table) (entries : Table → Index → Entry)
    (first second : Table) : List Index → Prop
  | [] => False
  | index :: _ => SharesSlot child entries first second index

/-- A longer path starts with a shared slot when a shorter one does. -/
theorem Shared.append (hshared : Shared child entries first second path) (rest : List Index) :
    Shared child entries first second (path ++ rest) := by
  cases path with
  | nil => exact hshared.elim
  | cons => exact hshared

/-- Two roots that keep what a path reaches keep the slots they share. -/
theorem Shared.mono (hshared : Shared child entries first second path)
    (hkept : ∀ root, root = first ∨ root = second → ∀ index table,
      child (entries root index) = some table → child (next root index) = some table) :
    Shared child next first second path := by
  cases path with
  | nil => exact hshared.elim
  | cons index rest =>
    obtain ⟨table, hfirst, hsecond⟩ := hshared
    exact ⟨table, hkept first (Or.inl rfl) index table hfirst,
      hkept second (Or.inr rfl) index table hsecond⟩

/-- The roots have tables in common only at the same paths, and only behind slots they share. -/
def IsForest (child : Entry → Option Table) (entries : Table → Index → Entry) (depth : ℕ)
    (roots : Table → Prop) : Prop :=
  ∀ first second firstPath secondPath table, roots first → roots second →
    firstPath.length ≤ depth → secondPath.length ≤ depth →
      descend child entries first firstPath = some table →
        descend child entries second secondPath = some table →
          firstPath = secondPath ∧ (first = second ∨ Shared child entries first second firstPath)

/-- A tree is a forest of one root. -/
theorem IsTree.isForest (htree : IsTree child entries depth root) :
    IsForest child entries depth fun other ↦ other = root := by
  rintro first second firstPath secondPath table rfl rfl hfirst hsecond hreachFirst hreachSecond
  exact ⟨htree firstPath secondPath table hfirst hsecond hreachFirst hreachSecond, Or.inl rfl⟩

/-- Each root of a forest is the root of a tree. -/
theorem IsForest.isTree (hforest : IsForest child entries depth roots) (hroot : roots root) :
    IsTree child entries depth root :=
  fun first second table hfirst hsecond hreachFirst hreachSecond ↦
    (hforest root root first second table hroot hroot hfirst hsecond hreachFirst hreachSecond).1

/-- Two roots have the same tables behind a slot they share. -/
theorem descend_shared (hshared : Shared child entries root other path) :
    descend child entries root path = descend child entries other path := by
  cases path with
  | nil => exact hshared.elim
  | cons index rest =>
    obtain ⟨table, hroot, hother⟩ := hshared
    rw [descend, descend, hroot, hother]

/-- A table that two roots reach is at the same path from both. -/
theorem IsForest.descend_of_reaches (hforest : IsForest child entries depth roots)
    (hroot : roots root) (hother : roots other)
    (hreach : descend child entries root path = some table) (hlength : path.length ≤ depth)
    (hreaches : Reaches child entries depth other table) :
    descend child entries other path = some table := by
  obtain ⟨otherPath, hotherLength, hotherReach⟩ := hreaches
  obtain ⟨rfl, -⟩ := hforest root other path otherPath table hroot hother hlength hotherLength
    hreach hotherReach
  exact hotherReach

/-- Outside the shared slots a table is reached from one root only. -/
theorem IsForest.not_reaches (hforest : IsForest child entries depth roots)
    (hroot : roots root) (hother : roots other) (hne : other ≠ root)
    (hreach : descend child entries root path = some table) (hlength : path.length ≤ depth)
    (hshared : ¬ Shared child entries root other path) :
    ¬ Reaches child entries depth other table := by
  rintro ⟨otherPath, hotherLength, hotherReach⟩
  rcases (hforest root other path otherPath table hroot hother hlength hotherLength hreach
    hotherReach).2 with heq | hsame
  · exact hne heq.symm
  · exact hshared hsame

/-- The path that a root is reached by is empty. -/
theorem IsForest.path_eq_nil (hforest : IsForest child entries depth roots)
    (hroot : roots root) (hother : roots other)
    (hreach : descend child entries root path = some other) (hlength : path.length ≤ depth) :
    path = [] :=
  (hforest root other path [] other hroot hother hlength (Nat.zero_le _) hreach rfl).1

/-- A forest that the same paths descend, from roots with the same slots, is a forest. -/
theorem IsForest.congr (hforest : IsForest child entries depth roots)
    (hsame : ∀ root, roots root → ∀ path : List Index, path.length ≤ depth →
      descend child next root path = descend child entries root path)
    (hslots : ∀ root, roots root → ∀ index table,
      child (entries root index) = some table → child (next root index) = some table) :
    IsForest child next depth roots := by
  intro first second firstPath secondPath table hfirst hsecond hfirstLength hsecondLength
    hreachFirst hreachSecond
  rw [hsame first hfirst firstPath hfirstLength] at hreachFirst
  rw [hsame second hsecond secondPath hsecondLength] at hreachSecond
  obtain ⟨rfl, hshared⟩ := hforest first second firstPath secondPath table hfirst hsecond
    hfirstLength hsecondLength hreachFirst hreachSecond
  refine ⟨rfl, hshared.imp_right fun hshared ↦ hshared.mono ?_⟩
  rintro root (rfl | rfl)
  · exact hslots root hfirst
  · exact hslots root hsecond

/-! ### Changes of one entry -/

section Changes

variable (hforest : IsForest child entries depth roots) (hroot : roots root)
  (hreach : descend child entries root path = some table)
  (hagree : ∀ root other, roots root → Reaches child entries depth root other → other ≠ table →
    ∀ index, next other index = entries other index)

include hforest hroot hreach hagree

/-- Frame rule: another root does not see a change of a table outside the slots it shares. -/
theorem IsForest.descend_other (hlength : path.length ≤ depth) (hother : roots other)
    (hne : other ≠ root) (hshared : ¬ Shared child entries root other path) :
    ∀ otherPath : List Index, otherPath.length ≤ depth + 1 →
      descend child next other otherPath = descend child entries other otherPath :=
  descend_of_not_reaches (fun reached ↦ hagree other reached hother)
    (hforest.not_reaches hroot hother hne hreach hlength hshared)

/-- Changing one entry of a table changes only the paths that pass through the entry, from every
root. -/
theorem IsForest.descend_update (hlength : path.length ≤ depth)
    (hframe : ∀ other, other ≠ index → next table other = entries table other)
    (hother : roots other) :
    ∀ otherPath : List Index, otherPath.length ≤ depth + 1 → ¬ path ++ [index] <+: otherPath →
      descend child next other otherPath = descend child entries other otherPath := by
  intro otherPath hotherLength hnot
  by_cases hreaches : Reaches child entries depth other table
  · have hsame := hforest.descend_of_reaches hroot hother hreach hlength hreaches
    exact (hforest.isTree hother).descend_update hsame hlength hframe
      (fun reached ↦ hagree other reached hother) otherPath hotherLength hnot
  · exact descend_of_not_reaches (fun reached ↦ hagree other reached hother) hreaches otherPath
      hotherLength

/-- What a path reached before a table was hung under an empty entry, it reaches afterwards. -/
theorem IsForest.descend_of_some (hlength : path.length ≤ depth)
    (hempty : child (entries table index) = none)
    (hframe : ∀ other, other ≠ index → next table other = entries table other)
    (hother : roots other) {otherPath : List Index} (hotherLength : otherPath.length ≤ depth + 1)
    {reached : Table} (hreached : descend child entries other otherPath = some reached) :
    descend child next other otherPath = some reached := by
  by_cases hthrough : path ++ [index] <+: otherPath
  · by_cases hreaches : Reaches child entries depth other table
    · -- the entry was empty, so nothing was reached through it
      obtain ⟨rest, rfl⟩ := hthrough
      have hsame := hforest.descend_of_reaches hroot hother hreach hlength hreaches
      rw [descend_append, descend_snoc, hsame, Option.bind_some, hempty] at hreached
      cases hreached
    · rw [← hreached]
      exact descend_of_not_reaches (fun visited ↦ hagree other visited hother) hreaches otherPath
        hotherLength
  · rw [hforest.descend_update hroot hreach hagree hlength hframe hother otherPath hotherLength
      hthrough, hreached]

/-- Changing an entry of a leaf table keeps the forest. -/
theorem IsForest.leaf (hlength : path.length = depth) (hdepth : 0 < depth)
    (hframe : ∀ other, other ≠ index → next table other = entries table other) :
    IsForest child next depth roots := by
  refine hforest.congr (fun other hother otherPath hotherLength ↦ ?_)
    fun other hother slot reached hslot ↦ ?_
  · refine hforest.descend_update hroot hreach hagree (by omega) hframe hother otherPath (by omega)
      fun hthrough ↦ ?_
    have hle := hthrough.length_le
    rw [List.length_append, List.length_singleton] at hle
    omega
  · rw [hagree other other hother ⟨[], Nat.zero_le _, rfl⟩, hslot]
    rintro rfl
    have hnil := hforest.path_eq_nil hroot hother hreach (by omega)
    rw [hnil, List.length_nil] at hlength
    omega

/-- The tables reached after a fresh one is hung under an empty entry: the fresh one, at the path of
the entry, and those reached before. -/
theorem IsForest.reached_link (hlength : path.length < depth)
    (hempty : child (entries table index) = none) (hset : child (next table index) = some fresh)
    (hframe : ∀ other, other ≠ index → next table other = entries table other)
    (hclean : path.length + 1 < depth → ∀ index, child (next fresh index) = none)
    (hother : roots other) {otherPath : List Index} (hotherLength : otherPath.length ≤ depth)
    {reached : Table} (hreached : descend child next other otherPath = some reached) :
    (reached = fresh ∧ otherPath = path ++ [index] ∧
      descend child entries other path = some table) ∨
        descend child entries other otherPath = some reached := by
  classical
  by_cases hreaches : Reaches child entries depth other table
  · have hsame := hforest.descend_of_reaches hroot hother hreach (by omega) hreaches
    rw [(hforest.isTree hother).descend_link hsame hempty hlength hset hframe
      (fun visited ↦ hagree other visited hother) (by omega) hclean otherPath hotherLength]
      at hreached
    split_ifs at hreached with hlink
    · cases hreached
      exact Or.inl ⟨rfl, hlink, hsame⟩
    · exact Or.inr hreached
  · right
    rw [← hreached]
    exact (descend_of_not_reaches (fun visited ↦ hagree other visited hother) hreaches otherPath
      (by omega)).symm

/-- Hanging a fresh table whose entries are empty changes what is reached at the path of the entry
only. -/
theorem IsForest.descend_link_other (hlength : path.length < depth)
    (hempty : child (entries table index) = none) (hset : child (next table index) = some fresh)
    (hframe : ∀ other, other ≠ index → next table other = entries table other)
    (hclean : ∀ index, child (next fresh index) = none) (hother : roots other)
    {otherPath : List Index} (hotherLength : otherPath.length ≤ depth + 1)
    (hne : otherPath ≠ path ++ [index]) :
    descend child next other otherPath = descend child entries other otherPath := by
  classical
  by_cases hreaches : Reaches child entries depth other table
  · have hsame := hforest.descend_of_reaches hroot hother hreach (by omega) hreaches
    rw [(hforest.isTree hother).descend_link hsame hempty hlength hset hframe
      (fun visited ↦ hagree other visited hother) (Nat.le_refl _) (fun _ ↦ hclean)
      otherPath hotherLength,
      if_neg hne]
  · exact descend_of_not_reaches (fun visited ↦ hagree other visited hother) hreaches otherPath
      hotherLength

omit hforest hroot in
/-- The slots that a root had in use before a table was hung under an empty entry, it has in use
afterwards. -/
theorem slot_link (hempty : child (entries table index) = none)
    (hframe : ∀ other, other ≠ index → next table other = entries table other)
    (hother : roots other) (slot : Index) {reached : Table}
    (hslot : child (entries other slot) = some reached) :
    child (next other slot) = some reached := by
  by_cases htable : other = table
  · subst htable
    rw [hframe slot, hslot]
    rintro rfl
    rw [hslot] at hempty
    cases hempty
  · rw [hagree other other hother ⟨[], Nat.zero_le _, rfl⟩ htable, hslot]

/-- Hanging a fresh table under an empty entry keeps the forest. -/
theorem IsForest.link (hlength : path.length < depth)
    (hempty : child (entries table index) = none) (hset : child (next table index) = some fresh)
    (hframe : ∀ other, other ≠ index → next table other = entries table other)
    (hclean : path.length + 1 < depth → ∀ index, child (next fresh index) = none)
    (hfresh : ∀ root, roots root → ¬ Reaches child entries depth root fresh) :
    IsForest child next depth roots := by
  have hreached : ∀ other, roots other → ∀ otherPath reached, otherPath.length ≤ depth →
      descend child next other otherPath = some reached →
        (reached = fresh ∧ otherPath = path ++ [index] ∧
          descend child entries other path = some table) ∨
            descend child entries other otherPath = some reached :=
    fun other hother otherPath reached hotherLength hsome ↦
      hforest.reached_link hroot hreach hagree hlength hempty hset hframe hclean hother hotherLength
        hsome
  intro first second firstPath secondPath reached hfirst hsecond hfirstLength hsecondLength
    hreachFirst hreachSecond
  have hmono : ∀ otherPath, Shared child entries first second otherPath →
      Shared child next first second otherPath := by
    refine fun otherPath hshared ↦ hshared.mono ?_
    rintro other (rfl | rfl) slot target
    · exact slot_link hreach hagree hempty hframe hfirst slot
    · exact slot_link hreach hagree hempty hframe hsecond slot
  rcases hreached first hfirst firstPath reached hfirstLength hreachFirst with
    ⟨rfl, rfl, hlinkFirst⟩ | holdFirst
  · rcases hreached second hsecond secondPath _ hsecondLength hreachSecond with
      ⟨-, rfl, hlinkSecond⟩ | holdSecond
    · obtain ⟨-, hsame⟩ := hforest first second path path table hfirst hsecond (by omega)
        (by omega) hlinkFirst hlinkSecond
      exact ⟨rfl, hsame.imp_right fun hshared ↦ (hmono path hshared).append [index]⟩
    · exact absurd ⟨secondPath, hsecondLength, holdSecond⟩ (hfresh second hsecond)
  · rcases hreached second hsecond secondPath reached hsecondLength hreachSecond with
      ⟨rfl, -, -⟩ | holdSecond
    · exact absurd ⟨firstPath, hfirstLength, holdFirst⟩ (hfresh first hfirst)
    · obtain ⟨rfl, hsame⟩ := hforest first second firstPath secondPath reached hfirst hsecond
        hfirstLength hsecondLength holdFirst holdSecond
      exact ⟨rfl, hsame.imp_right (hmono firstPath)⟩

end Changes

/-! ### A further root -/

section Copy

variable (hroot : roots root)
  (hcopy : ∀ index table, child (next fresh index) = some table →
    child (entries root index) = some table)
  (hfresh : ∀ root, roots root → ¬ Reaches child entries depth root fresh)
  (hagree : ∀ root other, roots root → Reaches child entries depth root other →
    ∀ index, next other index = entries other index)

include hroot hcopy hfresh hagree

/-- What a fresh root reaches that copies slots of another: itself, and what the other reaches. -/
theorem reached_copy (hlength : path.length ≤ depth + 1)
    (hreach : descend child next fresh path = some table) :
    (path = [] ∧ table = fresh) ∨ (path ≠ [] ∧ descend child entries root path = some table) := by
  cases path with
  | nil =>
    cases hreach
    exact Or.inl ⟨rfl, rfl⟩
  | cons index path =>
    rw [descend] at hreach
    cases hslot : child (next fresh index) with
    | none =>
      rw [hslot] at hreach
      cases hreach
    | some target =>
      rw [hslot] at hreach
      have hkept := hcopy index target hslot
      refine Or.inr ⟨List.cons_ne_nil index path, ?_⟩
      rw [← descend_of_not_reaches (fun other hother _ ↦ hagree root other hroot hother)
        (hfresh root hroot) (index :: path) hlength, descend,
        hagree root root hroot ⟨[], Nat.zero_le _, rfl⟩, hkept]
      exact hreach

omit hfresh in
/-- A fresh root shares with the others the slots that the root it copies does, and with that root
the slots it copied. -/
theorem shared_copy (hother : roots other) (hpath : path ≠ [])
    (hreach : descend child next fresh path = some table)
    (hshared : root = other ∨ Shared child entries root other path) :
    Shared child next fresh other path := by
  have hself := fun other (hother : roots other) ↦
    hagree other other hother ⟨[], Nat.zero_le _, rfl⟩
  cases path with
  | nil => exact absurd rfl hpath
  | cons index rest =>
    rw [descend] at hreach
    cases hslot : child (next fresh index) with
    | none =>
      rw [hslot] at hreach
      cases hreach
    | some target =>
      have hkept := hcopy index target hslot
      rcases hshared with rfl | ⟨shared, htarget, htargetOther⟩
      · exact ⟨target, hslot, by rw [hself root hroot, hkept]⟩
      · obtain rfl : target = shared := Option.some.inj (hkept.symm.trans htarget)
        exact ⟨target, hslot, by rw [hself other hother, htargetOther]⟩

/-- A fresh root that copies slots of another joins the forest. -/
theorem IsForest.insert_copy (hforest : IsForest child entries depth roots) :
    IsForest child next depth fun other ↦ other = fresh ∨ roots other := by
  have hold := fun other (hother : roots other) ↦
    descend_of_not_reaches (fun reached hreached _ ↦ hagree other reached hother hreached)
      (hfresh other hother)
  have hreached := fun path table (hlength : path.length ≤ depth)
      (hreach : descend child next fresh path = some table) ↦
    reached_copy hroot hcopy hfresh hagree (Nat.le_succ_of_le hlength) hreach
  rintro first second firstPath secondPath table (rfl | hfirst) (rfl | hsecond) hfirstLength
    hsecondLength hreachFirst hreachSecond
  · refine ⟨?_, Or.inl rfl⟩
    rcases hreached firstPath table hfirstLength hreachFirst with ⟨rfl, rfl⟩ | ⟨-, hfirst⟩
    · rcases hreached secondPath _ hsecondLength hreachSecond with ⟨rfl, -⟩ | ⟨-, hsecond⟩
      · rfl
      · exact absurd ⟨secondPath, hsecondLength, hsecond⟩ (hfresh root hroot)
    · rcases hreached secondPath table hsecondLength hreachSecond with ⟨rfl, rfl⟩ | ⟨-, hsecond⟩
      · exact absurd ⟨firstPath, hfirstLength, hfirst⟩ (hfresh root hroot)
      · exact hforest.isTree hroot firstPath secondPath table hfirstLength hsecondLength hfirst
          hsecond
  · rw [hold second hsecond secondPath (by omega)] at hreachSecond
    rcases hreached firstPath table hfirstLength hreachFirst with ⟨rfl, rfl⟩ | ⟨hpath, hfirst⟩
    · exact absurd ⟨secondPath, hsecondLength, hreachSecond⟩ (hfresh second hsecond)
    · obtain ⟨rfl, hshared⟩ := hforest root second firstPath secondPath table hroot hsecond
        hfirstLength hsecondLength hfirst hreachSecond
      exact ⟨rfl, Or.inr (shared_copy hroot hcopy hagree hsecond hpath hreachFirst hshared)⟩
  · rw [hold first hfirst firstPath (by omega)] at hreachFirst
    rcases hreached secondPath table hsecondLength hreachSecond with ⟨rfl, rfl⟩ | ⟨hpath, hsecond⟩
    · exact absurd ⟨firstPath, hfirstLength, hreachFirst⟩ (hfresh first hfirst)
    · obtain ⟨rfl, hshared⟩ := hforest root first secondPath firstPath table hroot hfirst
        hsecondLength hfirstLength hsecond hreachFirst
      refine ⟨rfl, Or.inr ?_⟩
      have hcopied := shared_copy hroot hcopy hagree hfirst hpath hreachSecond hshared
      cases secondPath with
      | nil => exact hcopied.elim
      | cons => exact hcopied.symm
  · rw [hold first hfirst firstPath (by omega)] at hreachFirst
    rw [hold second hsecond secondPath (by omega)] at hreachSecond
    obtain ⟨rfl, hshared⟩ := hforest first second firstPath secondPath table hfirst hsecond
      hfirstLength hsecondLength hreachFirst hreachSecond
    refine ⟨rfl, hshared.imp_right fun hshared ↦ hshared.mono ?_⟩
    rintro other (rfl | rfl) index target htarget
    · rw [hagree other other hfirst ⟨[], Nat.zero_le _, rfl⟩, htarget]
    · rw [hagree other other hsecond ⟨[], Nat.zero_le _, rfl⟩, htarget]

end Copy

end Colix.Foundation
