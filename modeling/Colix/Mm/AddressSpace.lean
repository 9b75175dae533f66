import Colix.Foundation.RadixForest
import Colix.Mm.TableSupply

/-!
# Address spaces that share slots

Several PML4s in one memory, over one supply of tables. `Spaces` is what keeps them apart: they form
a forest, whose roots may share slots, and no table of theirs can be handed out again.

`Spaces.map` and `Spaces.unmap` say all that `vmm_map` and `vmm_unmap` on one PML4 do to all of them
(`SpaceUpdate`): an address space that shares the slot of the address sees the change, the others do
not. `vmm_map` keeps this as long as the directories it makes come zeroed, for which
`missingDirectories` counts them. `Spaces.insert_copy` adds a copy of a PML4.
-/

set_option autoImplicit false
set_option relaxedAutoImplicit false

namespace Colix.Mm

open Foundation

/-- Two PML4s have the same table in a slot. -/
abbrev SharesSlot (memory : Memory) (first second : Word) (index : TableIndex) : Prop :=
  Foundation.SharesSlot childOf (entry memory) first second index

/-- PML4s that have tables in common only behind slots they share, and whose tables are not
available. -/
structure Spaces (roots : Word → Prop) (memory : Memory)
    (supply : TableSupply) : Prop where
  ready : SupplyReady supply
  aligned : ∀ root, roots root → PageAligned root
  forest : IsForest childOf (entry memory) 3 roots
  used : ∀ root table, roots root → TableOf memory root table → ¬ Available supply table

/-- How many directories a path to a page table still needs. -/
def missingDirectories (memory : Memory) (root virt : Word) : ℕ :=
  match tableAt memory root [pml4Idx virt] with
  | none => 2
  | some _ =>
    match tableAt memory root [pml4Idx virt, pdpIdx virt] with
    | none => 1
    | some _ => 0

/-- The directories that a map of an address makes come zeroed. -/
def CleanDirectories (memory : Memory) (supply : TableSupply) (root virt : Word) : Prop :=
  CleanTables memory (missingDirectories memory root virt) supply

/-- What an operation on the mapping of an address in one address space does to all of them. -/
structure SpaceUpdate (roots : Word → Prop) (root virt : Word)
    (value : Option Word) (memory : Memory) (supply : TableSupply) (next : Memory)
    (supplyNext : TableSupply) : Prop where
  spaces : Spaces roots next supplyNext
  self : pageMap next root (virtualPage virt) = value
  /-- Mappings of other addresses stay. -/
  kept : ∀ other, roots other → ∀ page, page ≠ virtualPage virt → ∀ phys,
    pageMap memory other page = some phys → pageMap next other page = some phys
  keptTables : ∀ other, roots other → ∀ path : List TableIndex, path.length ≤ 3 → ∀ reached,
    tableAt memory other path = some reached → tableAt next other path = some reached
  /-- An address space that does not share the slot sees no change. -/
  isolated : ∀ other, roots other → other ≠ root → ¬ SharesSlot memory root other (pml4Idx virt) →
    pageMap next other = pageMap memory other
  slot : ∀ other, roots other → other ≠ root → ∀ index,
    tableAt next other [index] = tableAt memory other [index]
  available : ∀ page, Available supplyNext page → Available supply page
  source : SameSource supply supplyNext
  tables : ∀ other table, roots other → TableOf next other table →
    TableOf memory other table ∨ Available supply table

section Spaces

variable {roots : Word → Prop} {memory next zeroed : Memory}
  {supply supplyNext : TableSupply} {root other table new virt flags : Word}
  {path : List TableIndex} {index : TableIndex}

theorem Spaces.wellFormed (hspaces : Spaces roots memory supply) (hroot : roots root) :
    WellFormed memory root :=
  ⟨hspaces.aligned root hroot, hspaces.forest.isTree hroot⟩

/-- The tables of the address spaces are page-aligned. -/
theorem Spaces.pageAligned (hspaces : Spaces roots memory supply) (hroot : roots root)
    (htable : TableOf memory root table) : PageAligned table := by
  obtain ⟨_, -, hreach⟩ := htable
  exact pageAligned_of_tableAt (hspaces.aligned root hroot) hreach

/-- Memory that is the same in every table holds the same address spaces. -/
theorem Spaces.congr (hspaces : Spaces roots memory supply) (hready : SupplyReady supplyNext)
    (havailable : ∀ page, Available supplyNext page → Available supply page ∨
      ∀ root, roots root → ¬ TableOf memory root page)
    (hagree : ∀ root table, roots root → TableOf memory root table → ∀ position,
      InPage table position → next position = memory position) :
    Spaces roots next supplyNext ∧ ∀ root, roots root → ∀ path : List TableIndex,
      path.length ≤ 4 → tableAt next root path = tableAt memory root path := by
  have hentries : ∀ root table, roots root → TableOf memory root table → ∀ index,
      entry next table index = entry memory table index :=
    fun root table hroot htable ↦ entry_congr (hspaces.pageAligned hroot htable)
      (hagree root table hroot htable)
  have hsame : ∀ root, roots root → ∀ path : List TableIndex, path.length ≤ 4 →
      tableAt next root path = tableAt memory root path := fun root hroot ↦
    descend_congr fun path table hlength hreach index ↦
      congrArg childOf (hentries root table hroot ⟨path, by omega, hreach⟩ index)
  refine ⟨⟨hready, hspaces.aligned, hspaces.forest.congr ?_ ?_, ?_⟩, hsame⟩
  · exact fun root hroot path hlength ↦ hsame root hroot path (by omega)
  · intro root hroot index table hslot
    rw [hentries root root hroot ⟨[], Nat.zero_le _, rfl⟩ index, hslot]
  · rintro root table hroot ⟨path, hlength, hreach⟩ hpage
    replace hreach : tableAt next root path = some table := hreach
    rw [hsame root hroot path (by omega)] at hreach
    have htable : TableOf memory root table := ⟨path, hlength, hreach⟩
    rcases havailable table hpage with hold | hnot
    · exact hspaces.used root table hroot htable hold
    · exact hnot root hroot htable

/-- The table in a slot, as the paths see it. -/
theorem tableAt_singleton (memory : Memory) (root : Word) (index : TableIndex) :
    tableAt memory root [index] = childOf (entry memory root index) := by
  rw [show [index] = [] ++ [index] from rfl, tableAt_snoc]
  rfl

/-- A slot that two PML4s share after the first one got more tables, they shared before. -/
theorem Spaces.sharesSlot_of_next (hspaces : Spaces roots memory supply) (hroot : roots root)
    (hother : roots other) (hslot : tableAt next other [index] = tableAt memory other [index])
    (htables : ∀ table, TableOf next root table → TableOf memory root table ∨
      Available supply table)
    (hshares : SharesSlot next root other index) : SharesSlot memory root other index := by
  obtain ⟨table, hnextRoot, hnextOther⟩ := hshares
  rw [← tableAt_singleton] at hnextRoot hnextOther
  rw [hslot] at hnextOther
  rcases htables table ⟨[index], by simp, hnextRoot⟩ with ⟨path, hlength, hreach⟩ | hpage
  · obtain ⟨rfl, -⟩ := hspaces.forest root other path [index] table hroot hother hlength (by simp)
      hreach hnextOther
    refine ⟨table, ?_, ?_⟩
    · rw [← tableAt_singleton]
      exact hreach
    · rw [← tableAt_singleton]
      exact hnextOther
  · exact absurd hpage (hspaces.used other table hother ⟨[index], by simp, hnextOther⟩)

/-- Taking a page from the page allocator keeps the address spaces. -/
theorem Spaces.take (hspaces : Spaces roots memory supply) {page : Word} {pmm : Pmm}
    (htook : Took supply.pmm page pmm) : Spaces roots memory { supply with pmm := pmm } := by
  have hsupply := htook.supply hspaces.ready
  exact ⟨hsupply.ready, hspaces.aligned, hspaces.forest, fun root table hroot htable hpage ↦
    hspaces.used root table hroot htable (hsupply.rest table hpage).1⟩

/-! ### A new table -/

section Link

variable (hspaces : Spaces roots memory supply) (hroot : roots root)
  (hstep : LinkStep allocTable root flags path index memory supply table new zeroed supplyNext)

include hspaces

/-- A new table is fresh in every address space. -/
theorem Spaces.freshTable (hallocated : Allocated memory supply new zeroed supplyNext)
    (hother : roots other) : FreshTable memory other new zeroed :=
  ⟨hallocated.aligned, hallocated.bound,
    fun htable ↦ hspaces.used other new hother htable hallocated.available, hallocated.frame⟩

include hroot hstep

/-- Hanging a new table changes one entry of the tables of the address spaces. -/
theorem Spaces.entry_link (hlength : path.length < 3) :
    (∀ position, position ≠ index → entry (linked zeroed table index new flags) table position =
        entry memory table position) ∧
      ∀ other reached, roots other → TableOf memory other reached → reached ≠ table → ∀ position,
        entry (linked zeroed table index new flags) reached position =
          entry memory reached position := by
  have hallocated := hspaces.ready.allocTable hstep.allocated
  have htable : TableOf memory root table := ⟨path, by omega, hstep.reached⟩
  have haligned := hspaces.pageAligned hroot htable
  have hne : ∀ other reached, roots other → TableOf memory other reached → reached ≠ new := by
    rintro other reached hother hreached rfl
    exact hspaces.used other reached hother hreached hallocated.available
  refine ⟨fun position hposition ↦ ?_, fun other reached hother hreached htables position ↦ ?_⟩
  · exact entry_linked haligned haligned hallocated.aligned (hne root table hroot htable)
      hallocated.frame position fun _ ↦ hposition
  · exact entry_linked haligned (hspaces.pageAligned hother hreached) hallocated.aligned
      (hne other reached hother hreached) hallocated.frame position fun heq ↦ absurd heq htables

/-- Hanging a new table keeps the address spaces apart. Assumes: the table is zero unless it is a
page table. -/
theorem Spaces.link (hlength : path.length < 3)
    (hclean : path.length + 1 < 3 → ZeroPage zeroed new) :
    Spaces roots (linked zeroed table index new flags) supplyNext ∧
      ∀ other reached, roots other →
        TableOf (linked zeroed table index new flags) other reached →
          reached = new ∨ TableOf memory other reached := by
  have hallocated := hspaces.ready.allocTable hstep.allocated
  obtain ⟨hframe, hagree⟩ := hspaces.entry_link hroot hstep hlength
  have htable : TableOf memory root table := ⟨path, by omega, hstep.reached⟩
  have hne : new ≠ table := by
    rintro rfl
    exact hspaces.used root new hroot htable hallocated.available
  have hset := childOf_entry_linked zeroed table index flags hallocated.aligned hallocated.bound
  have hempty : path.length + 1 < 3 → ∀ position,
      childOf (entry (linked zeroed table index new flags) new position) = none :=
    fun hlong ↦ childOf_entry_linked_new index flags (hspaces.pageAligned hroot htable)
      hallocated.aligned hne (hclean hlong)
  have hreached : ∀ other reached, roots other →
      TableOf (linked zeroed table index new flags) other reached →
        reached = new ∨ TableOf memory other reached := by
    rintro other reached hother ⟨otherPath, hotherLength, hotherReach⟩
    rcases hspaces.forest.reached_link hroot hstep.reached hagree hlength hstep.empty hset hframe
      hempty hother hotherLength hotherReach with ⟨hnew, -, -⟩ | hold
    · exact Or.inl hnew
    · exact Or.inr ⟨otherPath, hotherLength, hold⟩
  refine ⟨⟨hallocated.ready, hspaces.aligned, ?_, ?_⟩, hreached⟩
  · exact hspaces.forest.link hroot hstep.reached hagree hlength hstep.empty hset hframe hempty
      fun other hother ↦ (hspaces.freshTable hallocated hother).unused
  · intro other reached hother hotherReach hpage
    obtain ⟨hpage, hreached_ne⟩ := (hallocated.rest reached).mp hpage
    rcases hreached other reached hother hotherReach with hnew | hold
    · exact hreached_ne hnew
    · exact hspaces.used other reached hother hold hpage

/-- Hanging a new table writes to no page that can still be handed out. -/
theorem Spaces.cleanTables_link_iff (hlength : path.length < 3) (count : ℕ) :
    CleanTables (linked zeroed table index new flags) count supplyNext ↔
      CleanTables memory count supplyNext := by
  have hallocated := hspaces.ready.allocTable hstep.allocated
  have htable : TableOf memory root table := ⟨path, by omega, hstep.reached⟩
  have hsame : ∀ page, Available supplyNext page → ∀ position, InPage page position →
      linked zeroed table index new flags position = memory position := by
    intro page hpage position hposition
    obtain ⟨hpage, hne⟩ := (hallocated.rest page).mp hpage
    have hpageAligned := hspaces.ready.pageAligned hpage
    rw [linked, setEntry_apply (hspaces.pageAligned hroot htable)]
    · exact hallocated.frame position
        (not_inPage_of_ne hallocated.aligned hpageAligned hne hposition)
    · refine not_inPage_of_ne (hspaces.pageAligned hroot htable) hpageAligned ?_ hposition
      rintro rfl
      exact hspaces.used root page hroot htable hpage
  exact ⟨fun hclean ↦ hclean.congr hallocated.ready fun page hpage position hposition ↦
      (hsame page hpage position hposition).symm,
    fun hclean ↦ hclean.congr hallocated.ready hsame⟩

/-- What a path reaches it reaches after a new table was hung. -/
theorem Spaces.kept_link (hlength : path.length < 3) (hother : roots other)
    {otherPath : List TableIndex} (hotherLength : otherPath.length ≤ 4) {reached : Word}
    (hreached : tableAt memory other otherPath = some reached) :
    tableAt (linked zeroed table index new flags) other otherPath = some reached := by
  obtain ⟨hframe, hagree⟩ := hspaces.entry_link hroot hstep hlength
  exact hspaces.forest.descend_of_some hroot hstep.reached hagree (by omega) hstep.empty hframe
    hother
    hotherLength hreached

/-- Hanging a new table keeps the tables, and writes to them and to the new one only. -/
theorem Spaces.link_frame (hlength : path.length < 3) :
    (∀ reached, TableOf memory root reached →
        TableOf (linked zeroed table index new flags) root reached) ∧
      ∀ position, (∀ reached, TableOf (linked zeroed table index new flags) root reached →
        ¬ InPage reached position) →
          linked zeroed table index new flags position = memory position := by
  have hallocated := hspaces.ready.allocTable hstep.allocated
  obtain ⟨hframe, hagree⟩ := hspaces.entry_link hroot hstep hlength
  have hkept : ∀ other : List TableIndex, other.length ≤ 3 → ∀ reached,
      tableAt memory root other = some reached →
        tableAt (linked zeroed table index new flags) root other = some reached :=
    fun other hother reached ↦ hspaces.kept_link hroot hstep hlength hroot (by omega)
  have hold : ∀ reached, TableOf memory root reached →
      TableOf (linked zeroed table index new flags) root reached := by
    rintro reached ⟨other, hother, hreached⟩
    exact ⟨other, hother, hkept other hother reached hreached⟩
  have hnew : TableOf (linked zeroed table index new flags) root new := by
    refine ⟨path ++ [index], by rw [List.length_append]; exact hlength, ?_⟩
    change tableAt _ root (path ++ [index]) = some new
    rw [tableAt_snoc, hkept path (by omega) table hstep.reached, Option.bind_some]
    exact childOf_entry_linked zeroed table index flags hallocated.aligned hallocated.bound
  have htable : TableOf memory root table := ⟨path, by omega, hstep.reached⟩
  refine ⟨hold, fun position hnot ↦ ?_⟩
  rw [linked, setEntry_apply (hspaces.pageAligned hroot htable) (hnot table (hold table htable))]
  exact hallocated.frame position (hnot new hnew)

end Link

/-! ### The loop of `vmm_map` over the levels -/

/-- What holds while `vmm_map` makes the tables of a path: the address spaces as they were, with
more tables. -/
structure Growing (roots : Word → Prop) (root virt : Word)
    (memory : Memory) (supply : TableSupply) (next : Memory) (supplyNext : TableSupply) : Prop where
  spaces : Spaces roots next supplyNext
  clean : CleanDirectories next supplyNext root virt
  kept : ∀ other, roots other → ∀ path : List TableIndex, path.length ≤ 4 → ∀ reached,
    tableAt memory other path = some reached → tableAt next other path = some reached
  isolated : ∀ other, roots other → other ≠ root → ¬ SharesSlot memory root other (pml4Idx virt) →
    ∀ path : List TableIndex, path.length ≤ 4 → tableAt next other path = tableAt memory other path
  slot : ∀ other, roots other → other ≠ root → ∀ index,
    tableAt next other [index] = tableAt memory other [index]
  available : ∀ page, Available supplyNext page → Available supply page
  source : SameSource supply supplyNext
  tables : ∀ other table, roots other → TableOf next other table →
    TableOf memory other table ∨ Available supply table

theorem Spaces.growing (hspaces : Spaces roots memory supply)
    (hclean : CleanDirectories memory supply root virt) :
    Growing roots root virt memory supply memory supply :=
  ⟨hspaces, hclean, fun _ _ _ _ _ hreached ↦ hreached, fun _ _ _ _ _ _ ↦ rfl, fun _ _ _ _ ↦ rfl,
    fun _ hpage ↦ hpage, SameSource.refl supply, fun _ _ _ htable ↦ Or.inl htable⟩

/-- The directories of a path that leads to an empty entry are missing from there on. -/
theorem missingDirectories_of_empty (hextends : path ++ [index] <+: tablePath virt)
    (hreach : tableAt memory root path = some table)
    (hempty : childOf (entry memory table index) = none) :
    missingDirectories memory root virt = 2 - path.length := by
  have hnone : tableAt memory root (path ++ [index]) = none := by
    rw [tableAt_snoc, hreach, Option.bind_some, hempty]
  match path, hextends with
  | [], hextends =>
    obtain ⟨rest, hrest⟩ := hextends
    cases hrest
    rw [missingDirectories, show tableAt memory root [pml4Idx virt] = none from hnone]
    rfl
  | [_], hextends =>
    obtain ⟨rest, hrest⟩ := hextends
    cases hrest
    rw [missingDirectories, hreach, show tableAt memory root [pml4Idx virt, pdpIdx virt] = none
      from hnone]
    rfl
  | [_, _], hextends =>
    obtain ⟨rest, hrest⟩ := hextends
    cases hrest
    rw [missingDirectories, hreach]
    obtain ⟨parent, hparent, -⟩ := exists_descend_of_snoc
      (show tableAt memory root ([pml4Idx virt] ++ [pdpIdx virt]) = some table from hreach)
    rw [show tableAt memory root [pml4Idx virt] = some parent from hparent]
    rfl
  | _ :: _ :: _ :: _, hextends =>
    have hle := hextends.length_le
    simp only [tablePath, List.length_append, List.length_cons, List.length_nil] at hle
    omega

/-- A directory hung on the path is no longer missing. -/
theorem missingDirectories_of_linked (hextends : path ++ [index] <+: tablePath virt)
    (hreach : tableAt memory root path = some table)
    (hempty : childOf (entry memory table index) = none)
    (hlinked : ∀ other : List TableIndex, other.length ≤ 3 → tableAt next root other =
      if other = path ++ [index] then some new else tableAt memory root other) :
    missingDirectories next root virt = 1 - path.length := by
  have hnone : tableAt memory root (path ++ [index]) = none := by
    rw [tableAt_snoc, hreach, Option.bind_some, hempty]
  have hpdp := hlinked [pml4Idx virt] (by simp)
  have hpd := hlinked [pml4Idx virt, pdpIdx virt] (by simp)
  match path, hextends with
  | [], hextends =>
    obtain ⟨rest, hrest⟩ := hextends
    cases hrest
    have hbelow : tableAt memory root [pml4Idx virt, pdpIdx virt] = none := by
      rw [show [pml4Idx virt, pdpIdx virt] = [pml4Idx virt] ++ [pdpIdx virt] from rfl, tableAt_snoc,
        show tableAt memory root [pml4Idx virt] = none from hnone, Option.bind_none]
    rw [missingDirectories, hpdp, hpd, hbelow]
    simp
  | [_], hextends =>
    obtain ⟨rest, hrest⟩ := hextends
    cases hrest
    rw [missingDirectories, hpdp, hpd, hreach]
    simp
  | [_, _], hextends =>
    obtain ⟨rest, hrest⟩ := hextends
    cases hrest
    obtain ⟨parent, hparent, -⟩ := exists_descend_of_snoc
      (show tableAt memory root ([pml4Idx virt] ++ [pdpIdx virt]) = some table from hreach)
    rw [missingDirectories, hpdp, hpd, hreach,
      show tableAt memory root [pml4Idx virt] = some parent from hparent]
    simp
  | _ :: _ :: _ :: _, hextends =>
    have hle := hextends.length_le
    simp only [tablePath, List.length_append, List.length_cons, List.length_nil] at hle
    omega

/-- A path below that of a page table is shorter than three indices. -/
theorem length_lt_of_extends (hextends : path ++ [index] <+: tablePath virt) : path.length < 3 := by
  have hle := hextends.length_le
  rw [List.length_append, List.length_singleton] at hle
  exact hle

/-- A path to a page table starts with the slot of the address. -/
theorem not_shared_of_extends (hextends : path ++ [index] <+: tablePath virt)
    (hslot : ¬ SharesSlot memory root other (pml4Idx virt)) :
    ¬ Shared childOf (entry memory) root other path := by
  obtain ⟨rest, hrest⟩ := hextends
  cases path with
  | nil => exact fun hshared ↦ hshared.elim
  | cons first path =>
    rw [List.cons_append, List.cons_append, tablePath, List.cons.injEq] at hrest
    obtain ⟨rfl, -⟩ := hrest
    exact hslot

/-- One level of `vmm_map`. -/
theorem Growing.link {before : Memory} {supplyBefore : TableSupply}
    (hstart : Spaces roots memory supply) (hroot : roots root)
    (hextends : path ++ [index] <+: tablePath virt)
    (hgrowing : Growing roots root virt memory supply before supplyBefore)
    (hstep : LinkStep allocTable root flags path index before supplyBefore table new zeroed
      supplyNext) :
    Growing roots root virt memory supply (linked zeroed table index new flags) supplyNext ∧
      tableAt (linked zeroed table index new flags) root path = some table := by
  have hspaces := hgrowing.spaces
  have hlength := length_lt_of_extends hextends
  have hallocated := hspaces.ready.allocTable hstep.allocated
  have hmissing := missingDirectories_of_empty hextends hstep.reached hstep.empty
  obtain ⟨hframe, hagree⟩ := hspaces.entry_link hroot hstep hlength
  -- a directory comes zeroed, and those still missing after it do
  have hclean : path.length + 1 < 3 →
      ZeroPage zeroed new ∧ CleanTables before (1 - path.length) supplyNext := by
    intro hlong
    have hcount : missingDirectories before root virt = (1 - path.length) + 1 := by omega
    have hdirectories := hgrowing.clean
    rw [CleanDirectories, hcount] at hdirectories
    exact hdirectories new zeroed supplyNext hstep.allocated
  have hkept : ∀ other, roots other → ∀ otherPath : List TableIndex, otherPath.length ≤ 4 →
      ∀ reached, tableAt before other otherPath = some reached →
        tableAt (linked zeroed table index new flags) other otherPath = some reached :=
    fun other hother otherPath hotherLength reached ↦
      hspaces.kept_link hroot hstep hlength hother hotherLength
  obtain ⟨hlinked, htables⟩ := hspaces.link hroot hstep hlength fun hlong ↦ (hclean hlong).1
  refine ⟨⟨hlinked, ?_, ?_, ?_, ?_, ?_, hgrowing.source.trans hallocated.source, ?_⟩,
    hkept root hroot path (by omega) table hstep.reached⟩
  · have hsame : ∀ other : List TableIndex, other.length ≤ 3 →
        tableAt (linked zeroed table index new flags) root other =
          if other = path ++ [index] then some new else tableAt before root other :=
      (hspaces.wellFormed hroot).tableAt_linked (hspaces.freshTable hallocated hroot) hstep.reached
        hstep.empty hlength (by decide : 3 ≤ 4) fun hlong ↦ (hclean hlong).1
    rw [CleanDirectories,
      missingDirectories_of_linked hextends hstep.reached hstep.empty hsame]
    have hrest : CleanTables before (1 - path.length) supplyNext := by
      rcases Nat.lt_or_ge (path.length + 1) 3 with hlong | hleaf
      · exact (hclean hlong).2
      · rw [show 1 - path.length = 0 by omega]
        trivial
    exact (hspaces.cleanTables_link_iff hroot hstep hlength _).mpr hrest
  · intro other hother otherPath hotherLength reached hreached
    exact hkept other hother otherPath hotherLength reached
      (hgrowing.kept other hother otherPath hotherLength reached hreached)
  · intro other hother hne hslot otherPath hotherLength
    rw [← hgrowing.isolated other hother hne hslot otherPath hotherLength]
    refine hspaces.forest.descend_other hroot hstep.reached hagree (by omega) hother hne
      (not_shared_of_extends hextends fun hshares ↦ hslot ?_) otherPath hotherLength
    exact hstart.sharesSlot_of_next hroot hother (hgrowing.slot other hother hne _)
      (fun table ↦ hgrowing.tables root table hroot) hshares
  · intro other hother hne slot
    rw [← hgrowing.slot other hother hne slot]
    cases path with
    | nil =>
      exact hspaces.forest.descend_other hroot hstep.reached hagree (by omega) hother hne
        (fun hshared ↦ hshared.elim) [slot] (by simp)
    | cons first rest =>
      refine hspaces.forest.descend_update hroot hstep.reached hagree (by omega) hframe hother
        [slot] (by simp) fun hthrough ↦ ?_
      have hle := hthrough.length_le
      simp at hle
  · exact fun page hpage ↦ hgrowing.available page ((hallocated.rest page).mp hpage).1
  · intro other reached hother hreached
    rcases htables other reached hother hreached with rfl | hold
    · exact Or.inr (hgrowing.available _ hallocated.available)
    · exact hgrowing.tables other reached hother hold

/-! ### The operations -/

/-- A store to a page table of one address space. -/
theorem Spaces.setLeaf (hspaces : Spaces roots memory supply) (hroot : roots root)
    {pt : Word} (hreach : tableAt memory root (tablePath virt) = some pt) (e : Word) :
    SpaceUpdate roots root virt (childOf e) memory supply
      (setEntry memory pt (ptIdx virt) e) supply := by
  have htable : TableOf memory root pt := ⟨tablePath virt, le_refl 3, hreach⟩
  have haligned := hspaces.pageAligned hroot htable
  have hframe : ∀ other, other ≠ ptIdx virt →
      entry (setEntry memory pt (ptIdx virt) e) pt other = entry memory pt other :=
    fun _ hne ↦ entry_setEntry_of_index_ne haligned hne
  have hagree : ∀ other reached, roots other → TableOf memory other reached → reached ≠ pt →
      ∀ position, entry (setEntry memory pt (ptIdx virt) e) reached position =
        entry memory reached position :=
    fun _ _ hother hreached hne ↦
      entry_setEntry_of_table_ne haligned (hspaces.pageAligned hother hreached) hne
  have hupdate := fun other (hother : roots other) ↦
    hspaces.forest.descend_update hroot hreach hagree (le_refl 3) hframe hother
  have hshort : ∀ other, roots other → ∀ path : List TableIndex, path.length ≤ 3 →
      tableAt (setEntry memory pt (ptIdx virt) e) other path = tableAt memory other path := by
    intro other hother path hlength
    refine hupdate other hother path (by omega) fun hthrough ↦ ?_
    have hle : 4 ≤ path.length := hthrough.length_le
    omega
  refine ⟨⟨hspaces.ready, hspaces.aligned, ?_, ?_⟩, ?_, ?_, ?_, ?_, ?_, fun _ hpage ↦ hpage,
    SameSource.refl supply, ?_⟩
  · exact hspaces.forest.leaf hroot hreach hagree rfl (by decide) hframe
  · rintro other reached hother ⟨path, hlength, hreached⟩
    exact hspaces.used other reached hother
      ⟨path, hlength, (hshort other hother path hlength).symm.trans hreached⟩
  · rw [((hspaces.wellFormed hroot).setLeaf virt e hreach).2, Function.update_self]
  · intro other hother page hne phys hphys
    rw [← hphys]
    refine hupdate other hother (indicesOf page) (le_refl 4) fun hthrough ↦ hne ?_
    refine indicesOf_injective ?_
    rw [← pagePath_eq_indicesOf, pagePath_eq]
    exact (hthrough.eq_of_length rfl).symm
  · exact fun other hother path hlength reached hreached ↦
      (hshort other hother path hlength).trans hreached
  · intro other hother hne hslot
    funext page
    exact hspaces.forest.descend_other hroot hreach hagree (le_refl 3) hother hne hslot
      (indicesOf page) (le_refl 4)
  · exact fun other hother _ index ↦ hshort other hother [index] (by simp)
  · rintro other reached hother ⟨path, hlength, hreached⟩
    exact Or.inl ⟨path, hlength, (hshort other hother path hlength).symm.trans hreached⟩

/-- What `vmm_map` on one address space does to all of them. Assumes: the directories it makes come
zeroed. -/
theorem Spaces.map (hspaces : Spaces roots memory supply) (hroot : roots root)
    (hclean : CleanDirectories memory supply root virt) {phys : Word}
    (hmap : vmmMap allocTable root virt phys flags memory supply = some (next, supplyNext)) :
    SpaceUpdate roots root virt
      (childOf ((phys &&& pteAddrMask) ||| (flags ||| ptePresent))) memory supply next
        supplyNext := by
  obtain ⟨before, pt, hgrowing, hreach, rfl⟩ := vmmMap_rule
    (motive := Growing roots root virt memory supply)
    (fun _ _ _ _ _ _ _ _ hextends hgrowing hstep ↦ hgrowing.link hspaces hroot hextends hstep)
    (hspaces.growing hclean) hmap
  obtain ⟨hnext, hself, hkept, hkeptTables, hisolated, hslot, -, -, htables⟩ :=
    hgrowing.spaces.setLeaf hroot hreach
    ((phys &&& pteAddrMask) ||| (flags ||| ptePresent))
  refine ⟨hnext, hself, ?_, ?_, ?_, ?_, hgrowing.available, hgrowing.source, ?_⟩
  · exact fun other hother page hne reached hreached ↦ hkept other hother page hne reached
      (hgrowing.kept other hother (indicesOf page) (le_refl 4) reached hreached)
  · exact fun other hother path hlength reached hreached ↦ hkeptTables other hother path hlength
      reached (hgrowing.kept other hother path (by omega) reached hreached)
  · intro other hother hne hslot
    have hsame : pageMap before other = pageMap memory other := by
      funext page
      exact hgrowing.isolated other hother hne hslot (indicesOf page) (le_refl 4)
    rw [hisolated other hother hne fun hshares ↦ hslot ?_, hsame]
    exact hspaces.sharesSlot_of_next hroot hother (hgrowing.slot other hother hne _)
      (fun table ↦ hgrowing.tables root table hroot) hshares
  · intro other hother hne index
    rw [hslot other hother hne, hgrowing.slot other hother hne]
  · intro other reached hother hreached
    rcases htables other reached hother hreached with hold | hpage
    · exact hgrowing.tables other reached hother hold
    · exact Or.inr (hgrowing.available reached hpage)

/-- `vmm_map` writes to the tables of its address space only. -/
theorem Spaces.map_frame (hspaces : Spaces roots memory supply) (hroot : roots root)
    (hclean : CleanDirectories memory supply root virt) {phys : Word}
    (hmap : vmmMap allocTable root virt phys flags memory supply = some (next, supplyNext))
    {position : ℕ} (houtside : ∀ table, TableOf next root table → ¬ InPage table position) :
    next position = memory position := by
  obtain ⟨before, pt, ⟨hgrowing, hframe⟩, hreach, rfl⟩ := vmmMap_rule
    (motive := fun before supplyBefore ↦
      Growing roots root virt memory supply before supplyBefore ∧
        ((∀ table, TableOf before root table → ¬ InPage table position) →
          before position = memory position))
    (fun _ _ _ _ _ _ _ _ hextends ⟨hgrowing, hframe⟩ hstep ↦ by
      obtain ⟨hlinked, hreached⟩ := hgrowing.link hspaces hroot hextends hstep
      obtain ⟨hkept, hsame⟩ :=
        hgrowing.spaces.link_frame hroot hstep (length_lt_of_extends hextends)
      refine ⟨⟨hlinked, fun hnot ↦ ?_⟩, hreached⟩
      rw [hsame position hnot]
      exact hframe fun other hother ↦ hnot other (hkept other hother))
    ⟨hspaces.growing hclean, fun _ ↦ rfl⟩ hmap
  have hpt : TableOf before root pt := ⟨tablePath virt, le_refl 3, hreach⟩
  have hkept : ∀ table, TableOf before root table → ¬ InPage table position := by
    rintro table ⟨path, hlength, htable⟩
    refine houtside table ⟨path, hlength, ?_⟩
    exact (hgrowing.spaces.setLeaf hroot hreach _).keptTables root hroot path hlength table htable
  rw [setEntry_apply (hgrowing.spaces.pageAligned hroot hpt) (hkept pt hpt)]
  exact hframe hkept

/-- What `vmm_unmap` on one address space does to all of them. -/
theorem Spaces.unmap (hspaces : Spaces roots memory supply) (hroot : roots root)
    (virt : Word) : SpaceUpdate roots root virt none memory supply
      (vmmUnmap root virt memory) supply := by
  rw [vmmUnmap_eq]
  cases hreach : tableAt memory root (tablePath virt) with
  | some pt =>
    have hupdate := hspaces.setLeaf hroot hreach 0#64
    rwa [childOf_zero] at hupdate
  | none =>
    refine ⟨hspaces, ?_, fun _ _ _ _ _ hphys ↦ hphys, fun _ _ _ _ _ hreached ↦ hreached,
      fun _ _ _ _ ↦ rfl, fun _ _ _ _ ↦ rfl, fun _ hpage ↦ hpage, SameSource.refl supply,
      fun _ _ _ htable ↦ Or.inl htable⟩
    rw [pageMap, ← pagePath_eq_indicesOf, pagePath_eq, tableAt_snoc, hreach]
    rfl

/-- A fresh page that copies slots of a PML4 joins the address spaces. -/
theorem Spaces.insert_copy (hspaces : Spaces roots memory supply) (hroot : roots root)
    (hready : SupplyReady supplyNext) (havailable : Available supply new)
    (hrest : ∀ page, Available supplyNext page → Available supply page ∧ page ≠ new)
    (hcopy : ∀ index table, childOf (entry next new index) = some table →
      childOf (entry memory root index) = some table)
    (hframe : ∀ position, ¬ InPage new position → next position = memory position) :
    Spaces (fun other ↦ other = new ∨ roots other) next supplyNext ∧
      (∀ other, roots other → ∀ path : List TableIndex, path.length ≤ 4 →
        tableAt next other path = tableAt memory other path) ∧
        ∀ other table, other = new ∨ roots other → TableOf next other table →
          table = new ∨ ∃ owner, roots owner ∧ TableOf memory owner table := by
  have haligned := hspaces.ready.pageAligned havailable
  have hfresh : ∀ other, roots other → ¬ TableOf memory other new :=
    fun other hother htable ↦ hspaces.used other new hother htable havailable
  have hagree : ∀ other table, roots other → TableOf memory other table → ∀ index,
      entry next table index = entry memory table index := by
    intro other table hother htable
    have htableAligned := hspaces.pageAligned hother htable
    refine entry_congr htableAligned fun position hposition ↦ hframe position ?_
    refine not_inPage_of_ne haligned htableAligned ?_ hposition
    rintro rfl
    exact hfresh other hother htable
  have hsame : ∀ other, roots other → ∀ path : List TableIndex, path.length ≤ 4 →
      tableAt next other path = tableAt memory other path := fun other hother ↦
    descend_of_not_reaches (fun table htable _ ↦ hagree other table hother htable)
      (hfresh other hother)
  have htables : ∀ other table, other = new ∨ roots other → TableOf next other table →
      table = new ∨ ∃ owner, roots owner ∧ TableOf memory owner table := by
    rintro other table (rfl | hother) ⟨path, hlength, hreach⟩
    · rcases reached_copy hroot hcopy hfresh hagree (by omega) hreach with
        ⟨-, hself⟩ | ⟨-, hreached⟩
      · exact Or.inl hself
      · exact Or.inr ⟨root, hroot, path, hlength, hreached⟩
    · exact Or.inr ⟨other, hother, path, hlength,
        (hsame other hother path (by omega)).symm.trans hreach⟩
  refine ⟨⟨hready, ?_, hspaces.forest.insert_copy hroot hcopy hfresh hagree, ?_⟩, hsame,
    htables⟩
  · rintro other (rfl | hother)
    · exact haligned
    · exact hspaces.aligned other hother
  · intro other table hother htable hpage
    obtain ⟨hpage, hne⟩ := hrest table hpage
    rcases htables other table hother htable with rfl | ⟨owner, howner, hold⟩
    · exact hne rfl
    · exact hspaces.used owner table howner hold hpage

end Spaces

end Colix.Mm
