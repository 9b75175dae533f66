import Colix.Foundation.Execution
import Colix.Foundation.Postorder
import Colix.Mm.Pagedir
import Colix.Mm.VmmInitPool
import Colix.Mm.ZeroTables

/-!
# Freeing a page directory

`vmm_free_pagedir` of `kernel/mm/vmm.c` walks the lower half of a PML4 and passes every table of it
to `pmm_free`, each after those below it: `freedTables`. `pmm_free` ignores pages outside its
region, so a table that came from the pool does not come back.

`PagedirBuilt` accounts for the tables that `vmm_new_pagedir` and maps and unmaps of user addresses
take. `freePagedir_run` is what follows for the walk: it undoes them exactly when the pool was used
up before.
-/

set_option autoImplicit false
set_option relaxedAutoImplicit false

namespace Colix.Mm

open Foundation

/-! ### The source -/

/-- The loop of `vmm_free_pagedir` over the entries of a page directory. -/
def freePageTables (memory : Memory) (pd : Word) (pmm : Pmm) : Pmm :=
  (List.range 512).foldl
    (fun pmm p2 ↦
      if !isPresent (entry memory pd (BitVec.ofNat 9 p2)) then pmm
      else pmmFree pmm (ptePhys (entry memory pd (BitVec.ofNat 9 p2)))) pmm

/-- Its loop over the entries of a page directory pointer table. -/
def freeDirectories (memory : Memory) (pdp : Word) (pmm : Pmm) : Pmm :=
  (List.range 512).foldl
    (fun pmm p3 ↦
      if !isPresent (entry memory pdp (BitVec.ofNat 9 p3)) then pmm
      else
        let pd := ptePhys (entry memory pdp (BitVec.ofNat 9 p3))
        pmmFree (freePageTables memory pd pmm) pd) pmm

/-- `vmm_free_pagedir`. -/
def vmmFreePagedir (memory : Memory) (pml4 : Word) (pmm : Pmm) : Pmm :=
  let pmm := (List.range 256).foldl
    (fun pmm p4 ↦
      if !isPresent (entry memory pml4 (BitVec.ofNat 9 p4)) then pmm
      else
        let pdp := ptePhys (entry memory pml4 (BitVec.ofNat 9 p4))
        pmmFree (freeDirectories memory pdp pmm) pdp) pmm
  pmmFree pmm pml4

/-! ### The walk -/

/-- The first indices of a table. -/
def firstIndices (count : ℕ) : List TableIndex :=
  (List.range count).map (BitVec.ofNat 9)

/-- The indices that the walk tries at each level. -/
def userLevels : List (List TableIndex) :=
  [firstIndices 256, firstIndices 512, firstIndices 512]

/-- The arguments of `pmm_free`, in order. -/
def freedTables (memory : Memory) (pml4 : Word) : List Word :=
  postorder childOf (entry memory) userLevels pml4

/-- A table of the lower half of a PML4. -/
def UserTable (memory : Memory) (pml4 table : Word) : Prop :=
  ∃ path, Follows path userLevels ∧ tableAt memory pml4 path = some table

section Walk

variable {memory : Memory} {pml4 table : Word} {path : List TableIndex} {index : TableIndex}

theorem mem_firstIndices {count : ℕ} (hcount : count ≤ 512) :
    index ∈ firstIndices count ↔ index.toNat < count := by
  rw [firstIndices, List.mem_map]
  constructor
  · rintro ⟨i, hi, rfl⟩
    rw [List.mem_range] at hi
    rwa [BitVec.toNat_ofNat, Nat.mod_eq_of_lt (by omega)]
  · exact fun hindex ↦ ⟨index.toNat, List.mem_range.mpr hindex, BitVec.eq_of_toNat_eq
      (by rw [BitVec.toNat_ofNat, Nat.mod_eq_of_lt index.isLt])⟩

theorem nodup_firstIndices {count : ℕ} (hcount : count ≤ 512) : (firstIndices count).Nodup := by
  refine List.Nodup.map_on (fun first hfirst second hsecond heq ↦ ?_) List.nodup_range
  rw [List.mem_range] at hfirst hsecond
  have hnat := congrArg BitVec.toNat heq
  rwa [BitVec.toNat_ofNat, BitVec.toNat_ofNat, Nat.mod_eq_of_lt (by omega),
    Nat.mod_eq_of_lt (by omega)] at hnat

/-- The paths of the walk: at most three indices, the first in the lower half. -/
theorem follows_userLevels_iff :
    Follows path userLevels ↔ path.length ≤ 3 ∧ ∀ index ∈ path.head?, index.toNat < 256 := by
  have hany : ∀ index : TableIndex, index ∈ firstIndices 512 := fun index ↦
    (mem_firstIndices (le_refl 512)).mpr index.isLt
  have hlower : ∀ index : TableIndex, index ∈ firstIndices 256 ↔ index.toNat < 256 :=
    fun index ↦ mem_firstIndices (by decide)
  match path with
  | [] => simp [Follows]
  | [first] => simp [Follows, userLevels, hlower]
  | [first, second] => simp [Follows, userLevels, hlower, hany]
  | [first, second, third] => simp [Follows, userLevels, hlower, hany]
  | _ :: _ :: _ :: _ :: _ => simp [Follows, userLevels]

theorem UserTable.tableOf (huser : UserTable memory pml4 table) : TableOf memory pml4 table := by
  obtain ⟨path, hfollows, hreach⟩ := huser
  exact ⟨path, (follows_userLevels_iff.mp hfollows).1, hreach⟩

theorem mem_freedTables : table ∈ freedTables memory pml4 ↔ UserTable memory pml4 table :=
  mem_postorder

/-- The walk meets no table twice. -/
theorem nodup_freedTables (hwf : WellFormed memory pml4) : (freedTables memory pml4).Nodup := by
  have hdepth : userLevels.length = 3 := by
    simp only [userLevels, List.length_cons, List.length_nil]
  have htree : IsTree childOf (entry memory) userLevels.length pml4 := by
    rw [hdepth]
    exact hwf.tree
  have hlevels : ∀ indices ∈ userLevels, indices.Nodup := by
    rw [userLevels, List.forall_mem_cons, List.forall_mem_cons, List.forall_mem_singleton]
    exact ⟨nodup_firstIndices (by omega), nodup_firstIndices (by omega),
      nodup_firstIndices (by omega)⟩
  rw [freedTables]
  exact nodup_postorder hlevels htree

/-- One level of the walk. -/
theorem foldl_level (count : ℕ) (below : Word → List Word) (pmm : Pmm) :
    ((firstIndices count).flatMap fun index ↦
        (childOf (entry memory table index)).elim [] below).foldl pmmFree pmm =
      (List.range count).foldl
        (fun pmm i ↦
          if !isPresent (entry memory table (BitVec.ofNat 9 i)) then pmm
          else (below (ptePhys (entry memory table (BitVec.ofNat 9 i)))).foldl pmmFree pmm)
            pmm := by
  rw [List.foldl_flatMap, firstIndices, List.foldl_map]
  congr 1
  funext pmm i
  rw [childOf]
  cases isPresent (entry memory table (BitVec.ofNat 9 i)) <;> rfl

/-- `vmm_free_pagedir` frees the tables of the walk, one after the other. -/
theorem vmmFreePagedir_eq (memory : Memory) (pml4 : Word) (pmm : Pmm) :
    vmmFreePagedir memory pml4 pmm = (freedTables memory pml4).foldl pmmFree pmm := by
  simp only [freedTables, userLevels, postorder, List.foldl_append, List.foldl_cons, List.foldl_nil,
    foldl_level, vmmFreePagedir, freeDirectories, freePageTables]

end Walk

/-! ### What the page allocator gets back -/

section Free

variable {pmm : Pmm} {page : Word}

/-- Freeing pages frees those of the region, and no others. -/
theorem RegionReady.freePages (hready : RegionReady pmm) {pages : List Word}
    (haligned : ∀ page ∈ pages, PageAligned page) :
    (RegionReady (pages.foldl Mm.pmmFree pmm) ∧
        (pages.foldl Mm.pmmFree pmm).pmmBase = pmm.pmmBase ∧
          (pages.foldl Mm.pmmFree pmm).pmmTotalPages = pmm.pmmTotalPages) ∧
      ∀ page, FreePage (pages.foldl Mm.pmmFree pmm) page ↔ FreePage pmm page ∨
        page ∈ pages ∧ pmm.pmmBase.toNat ≤ page.toNat ∧
          page.toNat < pmm.pmmBase.toNat + pmm.pmmTotalPages.toNat * 4096 := by
  induction pages generalizing pmm with
  | nil => exact ⟨⟨hready, rfl, rfl⟩, fun page ↦ by simp⟩
  | cons first rest ih =>
    obtain ⟨hfirst, hrest⟩ := List.forall_mem_cons.mp haligned
    obtain ⟨hnext, hbase, htotal, -⟩ := hready.pmmFree hfirst
    obtain ⟨⟨hlast, hlastBase, hlastTotal⟩, hfree⟩ := ih hnext hrest
    refine ⟨⟨hlast, hlastBase.trans hbase, hlastTotal.trans htotal⟩, fun page ↦ ?_⟩
    rw [List.foldl_cons, hfree page, hready.freePage_pmmFree_iff hfirst, hbase, htotal,
      List.mem_cons, or_and_right, or_assoc]
    refine or_congr_right (or_congr_left (and_congr_right fun heq ↦ ?_))
    rw [heq]

end Free

/-- The tables that can still be handed out: of the pool, and free pages. -/
def tableCapacity (supply : TableSupply) : ℕ :=
  (262144 - supply.ptPoolUsed.toNat) / 4096 +
    ((List.range supply.pmm.pmmTotalPages.toNat).filter fun number ↦
      !bitTest supply.pmm.bitmap number).length

/-- The supply after `vmm_free_pagedir`. -/
def freedSupply (memory : Memory) (pml4 : Word) (supply : TableSupply) : TableSupply :=
  { supply with pmm := vmmFreePagedir memory pml4 supply.pmm }

/-- No page of the pool is left. -/
def PoolSpent (supply : TableSupply) : Prop :=
  262144 < supply.ptPoolUsed.toNat + 4096

/-- `vmm_free_pagedir` undoes what was done since a supply of tables: it frees the tables taken
since then and nothing else, each once, none of another address space, and what can be handed out is
what could be handed out then. -/
structure PagedirUndone (kernelPml4 pml4 : Word) (before : TableSupply) (s : Memory × TableSupply) :
    Prop where
  nodup : (freedTables s.1 pml4).Nodup
  taken : ∀ page, page ∈ freedTables s.1 pml4 ↔ Available before page ∧ ¬ Available s.2 page
  kernel : ∀ table, TableOf s.1 kernelPml4 table → table ∉ freedTables s.1 pml4
  restored : ∀ page, Available (freedSupply s.1 pml4 s.2) page ↔ Available before page
  capacity : tableCapacity (freedSupply s.1 pml4 s.2) = tableCapacity before

/-! ### The tables of a new page directory -/

/-- What holds while maps and unmaps of user addresses build a page directory: the tables of its
lower half are the pages taken, and no other address space has one of them. -/
structure PagedirBuilt (roots : Word → Prop) (before : TableSupply) (pml4 : Word) (memory : Memory)
    (supply : TableSupply) : Prop where
  spaces : Spaces (fun root ↦ root = pml4 ∨ roots root) memory supply
  fresh : ¬ roots pml4
  source : SameSource before supply
  taken : ∀ page, Available before page ↔ Available supply page ∨ UserTable memory pml4 page
  apart : ∀ other, roots other → ∀ index : TableIndex, index.toNat < 256 →
    ¬ SharesSlot memory pml4 other index

section Built

variable {roots : Word → Prop} {memory next : Memory} {before supply supplyNext : TableSupply}
  {kernelPml4 pml4 root virt phys flags page : Word}

/-- `vmm_new_pagedir` takes its PML4. -/
theorem PagedirCreated.built (hspaces : Spaces roots memory before)
    (hcreated : PagedirCreated roots memory before pml4 next supply) :
    PagedirBuilt roots before pml4 next supply := by
  refine ⟨hcreated.spaces, ?_, hcreated.source, fun page ↦ ?_, ?_⟩
  · exact fun hroot ↦
      hspaces.used pml4 pml4 hroot ⟨[], Nat.zero_le _, rfl⟩ hcreated.available
  · rw [hcreated.rest]
    constructor
    · intro hpage
      by_cases heq : page = pml4
      · rw [heq]
        exact Or.inr ⟨[], trivial, rfl⟩
      · exact Or.inl ⟨hpage, heq⟩
    · rintro (⟨hpage, -⟩ | ⟨_ | ⟨index, path⟩, hfollows, hreach⟩)
      · exact hpage
      · rw [← Option.some.inj hreach]
        exact hcreated.available
      · have hlower := (follows_userLevels_iff.mp hfollows).2 index rfl
        rw [tableAt, descend_cons_of_empty (hcreated.lower index hlower)] at hreach
        cases hreach
  · rintro other - index hlower ⟨table, hslot, -⟩
    rw [hcreated.lower index hlower] at hslot
    cases hslot

/-- A map of a user address takes pages for tables of the lower half. -/
theorem Spaces.map_taken (hspaces : Spaces roots memory supply) (hroot : roots root)
    (huser : (pml4Idx virt).toNat < 256) (hclean : CleanDirectories memory supply root virt)
    (hmap : vmmMap allocTable root virt phys flags memory supply = some (next, supplyNext)) :
    ∀ page, Available supply page → Available supplyNext page ∨ UserTable next root page := by
  obtain ⟨middle, pt, ⟨hgrowing, htaken⟩, hreach, rfl⟩ := vmmMap_rule
    (motive := fun middle supplyMiddle ↦
      Growing roots root virt memory supply middle supplyMiddle ∧
        ∀ page, Available supply page → Available supplyMiddle page ∨ UserTable middle root page)
    (fun path index middle supplyMiddle table new zeroed supplyAfter hextends ⟨hgrowing, htaken⟩
        hstep ↦ by
      obtain ⟨hlinked, hreached⟩ := hgrowing.link hspaces hroot hextends hstep
      have hlength := length_lt_of_extends hextends
      have hallocated := hgrowing.spaces.ready.allocTable hstep.allocated
      refine ⟨⟨hlinked, fun page hpage ↦ ?_⟩, hreached⟩
      rcases htaken page hpage with hmiddle | ⟨other, hfollows, hother⟩
      · by_cases heq : page = new
        · -- the table hangs at a path that starts with the slot of the address
          refine Or.inr ⟨path ++ [index], follows_userLevels_iff.mpr ⟨?_, ?_⟩, ?_⟩
          · rw [List.length_append]
            exact hlength
          · obtain ⟨rest, hrest⟩ := hextends
            intro first hfirst
            have hhead := congrArg List.head? hrest
            rw [List.head?_append, hfirst] at hhead
            rw [Option.some.inj hhead]
            exact huser
          · rw [tableAt_snoc, hreached, Option.bind_some, heq]
            exact childOf_entry_linked zeroed table index flags hallocated.aligned hallocated.bound
        · exact Or.inl ((hallocated.rest page).mpr ⟨hmiddle, heq⟩)
      · have hother3 := (follows_userLevels_iff.mp hfollows).1
        exact Or.inr ⟨other, hfollows,
          hgrowing.spaces.kept_link hroot hstep hlength hroot (by omega) hother⟩)
    ⟨hspaces.growing hclean, fun page hpage ↦ Or.inl hpage⟩ hmap
  intro page hpage
  refine (htaken page hpage).imp_right ?_
  rintro ⟨path, hfollows, hpath⟩
  exact ⟨path, hfollows, (hgrowing.spaces.setLeaf hroot hreach _).keptTables root hroot path
    (follows_userLevels_iff.mp hfollows).1 page hpath⟩

/-- A map or an unmap of a user address. -/
theorem PagedirBuilt.update (hbuilt : PagedirBuilt roots before pml4 memory supply)
    {value : Option Word}
    (hupdate : SpaceUpdate (fun root ↦ root = pml4 ∨ roots root) pml4 virt value memory supply next
      supplyNext)
    (htaken : ∀ page, Available supply page → Available supplyNext page ∨
      UserTable next pml4 page) :
    PagedirBuilt roots before pml4 next supplyNext := by
  have hself : pml4 = pml4 ∨ roots pml4 := Or.inl rfl
  have hkept : ∀ path table, Follows path userLevels → tableAt memory pml4 path = some table →
      tableAt next pml4 path = some table := fun path table hfollows ↦
    hupdate.keptTables pml4 hself path (follows_userLevels_iff.mp hfollows).1 table
  refine ⟨hupdate.spaces, hbuilt.fresh, hbuilt.source.trans hupdate.source, fun page ↦ ⟨?_, ?_⟩, ?_⟩
  · intro hpage
    rcases (hbuilt.taken page).mp hpage with hsupply | ⟨path, hfollows, hreach⟩
    · exact htaken page hsupply
    · exact Or.inr ⟨path, hfollows, hkept path page hfollows hreach⟩
  · rintro (hpage | ⟨path, hfollows, hreach⟩)
    · exact (hbuilt.taken page).mpr (Or.inl (hupdate.available page hpage))
    · have hlength := (follows_userLevels_iff.mp hfollows).1
      rcases hupdate.tables pml4 page hself ⟨path, hlength, hreach⟩ with
        ⟨old, holdLength, hold⟩ | hpage
      · -- the path by which the table was reached is the only one
        have hsame : old = path := (hupdate.spaces.wellFormed hself).tree old path page holdLength
          hlength (hupdate.keptTables pml4 hself old holdLength page hold) hreach
        rw [hsame] at hold
        exact (hbuilt.taken page).mpr (Or.inr ⟨path, hfollows, hold⟩)
      · exact (hbuilt.taken page).mpr (Or.inl hpage)
  · intro other hother index hlower hshares
    have hne : other ≠ pml4 := by
      rintro rfl
      exact hbuilt.fresh hother
    refine hbuilt.apart other hother index hlower ?_
    exact hbuilt.spaces.sharesSlot_of_next hself (Or.inr hother)
      (hupdate.slot other (Or.inr hother) hne index)
      (fun table ↦ hupdate.tables pml4 table hself) hshares

/-- No table of another address space is freed. -/
theorem PagedirBuilt.not_freed (hbuilt : PagedirBuilt roots before pml4 memory supply)
    (hroot : roots root) {table : Word} (htable : TableOf memory root table) :
    table ∉ freedTables memory pml4 := by
  rw [mem_freedTables]
  rintro ⟨path, hfollows, hreach⟩
  obtain ⟨hlength, hlower⟩ := follows_userLevels_iff.mp hfollows
  obtain ⟨otherPath, hotherLength, hotherReach⟩ := htable
  obtain ⟨-, hshared⟩ := hbuilt.spaces.forest pml4 root path otherPath table (Or.inl rfl)
    (Or.inr hroot) hlength hotherLength hreach hotherReach
  rcases hshared with rfl | hshared
  · exact hbuilt.fresh hroot
  · cases path with
    | nil => exact hshared
    | cons index path => exact hbuilt.apart root hroot index (hlower index rfl) hshared

/-- The walk frees the pages taken. -/
theorem PagedirBuilt.mem_freed_iff (hbuilt : PagedirBuilt roots before pml4 memory supply)
    (page : Word) :
    page ∈ freedTables memory pml4 ↔ Available before page ∧ ¬ Available supply page := by
  rw [mem_freedTables, hbuilt.taken page]
  constructor
  · exact fun huser ↦ ⟨Or.inr huser,
      hbuilt.spaces.used pml4 page (Or.inl rfl) huser.tableOf⟩
  · rintro ⟨hsupply | huser, hnot⟩
    · exact absurd hsupply hnot
    · exact huser

/-- What can be handed out after the walk. -/
theorem PagedirBuilt.available_iff (hbuilt : PagedirBuilt roots before pml4 memory supply)
    (page : Word) :
    Available (freedSupply memory pml4 supply) page ↔ Available supply page ∨
      page ∈ freedTables memory pml4 ∧ supply.pmm.pmmBase.toNat ≤ page.toNat ∧
        page.toNat < supply.pmm.pmmBase.toNat + supply.pmm.pmmTotalPages.toNat * 4096 := by
  have haligned : ∀ page ∈ freedTables memory pml4, PageAligned page := fun page hpage ↦
    hbuilt.spaces.pageAligned (Or.inl rfl) (mem_freedTables.mp hpage).tableOf
  obtain ⟨-, hfree⟩ := hbuilt.spaces.ready.region.freePages haligned
  rw [Available, freedSupply, vmmFreePagedir_eq, hfree page, Available, or_assoc]

end Built

/-! ### Every run -/

/-- The address that a call names. -/
def PageUpdate.virt : PageUpdate → Word
  | .map virt _ _ => virt
  | .unmap virt => virt

/-- The runs of `vmm_map` and `vmm_unmap` of user addresses on a new page directory. -/
def userSystem (pml4 : Word) (created : Memory × TableSupply) :
    TransitionSystem (Memory × TableSupply) PageUpdate :=
  .ofFunction (fun s ↦ s = created) fun s update ↦
    if (pml4Idx update.virt).toNat < 256 then update.perform allocTable pml4 s else none

/-- The directories that a call makes come zeroed. -/
def DirectoriesZero (pml4 : Word) (s : Memory × TableSupply) : PageUpdate → Prop
  | .map virt _ _ => CleanDirectories s.1 s.2 pml4 virt
  | .unmap _ => True

section Run

variable {roots : Word → Prop} {memory : Memory} {before supply : TableSupply}
  {kernelPml4 pml4 : Word} {created : Memory × TableSupply} {s : Memory × TableSupply}
  {updates : List PageUpdate}

/-- Every run keeps the account of the tables. -/
theorem PagedirBuilt.run (hbuilt : PagedirBuilt roots before pml4 created.1 created.2)
    (hrun : ((userSystem pml4 created).restrict (DirectoriesZero pml4)).Run updates s) :
    PagedirBuilt roots before pml4 s.1 s.2 := by
  refine hrun.invariant (motive := fun s ↦ PagedirBuilt roots before pml4 s.1 s.2) ?_ ?_
  · rintro _ rfl
    exact hbuilt
  · rintro state update next hstate ⟨hclean, hstep⟩
    have hguarded : (if (pml4Idx update.virt).toNat < 256 then
        update.perform allocTable pml4 state else none) = some next := hstep
    split_ifs at hguarded with huser
    cases update with
    | map virt phys flags =>
      have hmap : vmmMap allocTable pml4 virt phys flags state.1 state.2 = some (next.1, next.2) :=
        hguarded
      exact hstate.update (hstate.spaces.map (Or.inl rfl) hclean hmap)
        (hstate.spaces.map_taken (Or.inl rfl) huser hclean hmap)
    | unmap virt =>
      obtain rfl := Option.some.inj hguarded
      exact hstate.update (hstate.spaces.unmap (Or.inl rfl) virt) fun _ hpage ↦ Or.inl hpage

/-- A supply whose pool is used up hands out free pages only. -/
theorem available_iff_of_spent (hready : SupplyReady supply) (hspent : PoolSpent supply)
    (page : Word) : Available supply page ↔ FreePage supply.pmm page := by
  have hmod := hready.used_mod
  have hle := hready.used_le
  rw [PoolSpent] at hspent
  refine or_iff_right ?_
  rintro ⟨number, hge, hlt, -⟩
  omega

/-- Supplies of one source that can hand out the same pages have the same capacity. -/
theorem tableCapacity_congr {first second : TableSupply}
    (hready : SupplyReady first) (hfirst : PoolSpent first) (hsecond : PoolSpent second)
    (hsecondReady : SupplyReady second) (hsource : SameSource first second)
    (hsame : ∀ page, Available second page ↔ Available first page) :
    tableCapacity second = tableCapacity first := by
  have hbits : ∀ number < first.pmm.pmmTotalPages.toNat,
      bitTest second.pmm.bitmap number = bitTest first.pmm.bitmap number := by
    intro number hnumber
    have hbase := hready.region.base_ge
    have hfits := hready.region.fits
    have haddress : (BitVec.ofNat 64 (first.pmm.pmmBase.toNat + number * 4096)).toNat =
        first.pmm.pmmBase.toNat + number * 4096 := by
      rw [BitVec.toNat_ofNat, Nat.mod_eq_of_lt (by omega)]
    have hbit : ∀ pmm : Pmm, pmm.pmmBase = first.pmm.pmmBase →
        pmm.pmmTotalPages = first.pmm.pmmTotalPages →
          (FreePage pmm (BitVec.ofNat 64 (first.pmm.pmmBase.toNat + number * 4096)) ↔
            bitTest pmm.bitmap number = false) := by
      intro pmm hpmmBase hpmmTotal
      constructor
      · rintro ⟨other, -, hother, hfree⟩
        rw [haddress, hpmmBase] at hother
        rwa [show number = other by omega]
      · exact fun hfree ↦ ⟨number, by rwa [hpmmTotal], by rw [haddress, hpmmBase], hfree⟩
    have hiff := hsame (BitVec.ofNat 64 (first.pmm.pmmBase.toNat + number * 4096))
    rw [available_iff_of_spent hready hfirst, available_iff_of_spent hsecondReady hsecond,
      hbit _ hsource.base_eq hsource.total_eq, hbit _ rfl rfl] at hiff
    cases hold : bitTest first.pmm.bitmap number with
    | false => exact hiff.mpr hold
    | true =>
      rw [← Bool.not_eq_false, hiff, hold]
      exact Bool.noConfusion
  have hpool : ∀ supply : TableSupply, SupplyReady supply → PoolSpent supply →
      (262144 - supply.ptPoolUsed.toNat) / 4096 = 0 := by
    intro supply hready hspent
    have hmod := hready.used_mod
    have hle := hready.used_le
    rw [PoolSpent] at hspent
    omega
  rw [tableCapacity, tableCapacity, hpool first hready hfirst, hpool second hsecondReady hsecond,
    hsource.total_eq]
  congr 2
  refine List.filter_congr fun number hnumber ↦ ?_
  rw [hbits number (List.mem_range.mp hnumber)]

/-- When the pool was used up, what was taken comes back. -/
theorem PagedirBuilt.restored (hbuilt : PagedirBuilt roots before pml4 memory supply)
    (hready : SupplyReady before) (hspent : PoolSpent before) (page : Word) :
    Available (freedSupply memory pml4 supply) page ↔ Available before page := by
  rw [hbuilt.available_iff, hbuilt.taken page, mem_freedTables]
  refine or_congr_right (and_iff_left_of_imp fun huser ↦ ?_)
  have hfree := (available_iff_of_spent hready hspent page).mp
    ((hbuilt.taken page).mpr (Or.inr huser))
  rw [hbuilt.source.base_eq, hbuilt.source.total_eq]
  exact hfree.inRegion

/-- The pool stays used up. -/
theorem PagedirBuilt.spent (hbuilt : PagedirBuilt roots before pml4 memory supply)
    (hready : SupplyReady before) (hspent : PoolSpent before) : PoolSpent supply := by
  have hsupply := hbuilt.spaces.ready
  have hmod := hsupply.used_mod
  have hend := hsupply.pool_end
  have hbase := hready.region.base_ge
  rw [PoolSpent]
  by_contra hleft
  -- a page of the pool that is left would have been a free page of the region
  have haddress := (hsupply.toNat_pool (by omega)).1
  have hpage : Available supply (supply.ptPool + supply.ptPoolUsed) :=
    Or.inl ⟨supply.ptPoolUsed.toNat / 4096, by omega, by omega, by rw [haddress]; omega⟩
  have hregion := ((available_iff_of_spent hready hspent _).mp
    ((hbuilt.taken _).mpr (Or.inl hpage))).inRegion
  omega

/-- A PML4 from the pool does not come back. -/
theorem PagedirBuilt.not_restored (hbuilt : PagedirBuilt roots before pml4 memory supply)
    (hlow : pml4.toNat < 0x200000) : ¬ Available (freedSupply memory pml4 supply) pml4 := by
  have hbase := hbuilt.spaces.ready.region.base_ge
  rw [hbuilt.available_iff]
  rintro (hpage | ⟨-, hge, -⟩)
  · exact hbuilt.spaces.used pml4 pml4 (Or.inl rfl) ⟨[], Nat.zero_le _, rfl⟩ hpage
  · omega

/-- A PML4 that was taken while the pool had a page left is a page of the pool. -/
theorem pml4_low_of_pool (hready : SupplyReady before) (hpool : ¬ PoolSpent before)
    (hnew : vmmNewPagedir kernelPml4 memory before = some (pml4, created.1, created.2)) :
    pml4.toNat < 0x200000 := by
  have hend := hready.pool_end
  rw [PoolSpent] at hpool
  obtain ⟨zeroed, halloc, -⟩ := vmmNewPagedir_alloc hnew
  rcases allocTable_cases hready memory with ⟨hleft, hsome⟩ | ⟨hnot, -⟩ | ⟨hnot, -⟩
  · rw [hsome, Option.some.injEq, Prod.mk.injEq] at halloc
    rw [← halloc.1, (hready.toNat_pool hleft).1]
    omega
  · omega
  · omega

/-- For every prior state and every sequence of maps and unmaps of user addresses, whose directories
come without stale entries, `vmm_free_pagedir` undoes the page directory exactly when the pool was
used up before it. -/
theorem freePagedir_run (hspaces : Spaces roots memory before) (hkernel : roots kernelPml4)
    (hclean : CleanPml4 kernelPml4 memory before)
    (hnew : vmmNewPagedir kernelPml4 memory before = some (pml4, created.1, created.2))
    (hrun : ((userSystem pml4 created).restrict (DirectoriesZero pml4)).Run updates s) :
    PagedirUndone kernelPml4 pml4 before s ↔ PoolSpent before := by
  have hcreated := newPagedir_created hspaces hkernel hclean hnew
  have hbuilt := (hcreated.built hspaces).run hrun
  constructor
  · intro hundone
    by_contra hpool
    refine hbuilt.not_restored (pml4_low_of_pool hspaces.ready hpool hnew) ?_
    exact (hundone.restored pml4).mpr hcreated.available
  · intro hspent
    have hrestored := hbuilt.restored hspaces.ready hspent
    have hregion := (hbuilt.spaces.ready.region.freePages fun page hpage ↦
      hbuilt.spaces.pageAligned (Or.inl rfl) (mem_freedTables.mp hpage).tableOf).1
    rw [← vmmFreePagedir_eq] at hregion
    obtain ⟨hafter, hbase, htotal⟩ := hregion
    have hready : SupplyReady (freedSupply s.1 pml4 s.2) :=
      ⟨hafter, hbuilt.spaces.ready.pool_mod, hbuilt.spaces.ready.pool_end,
        hbuilt.spaces.ready.used_mod, hbuilt.spaces.ready.used_le⟩
    exact ⟨nodup_freedTables (hbuilt.spaces.wellFormed (Or.inl rfl)), hbuilt.mem_freed_iff,
      fun table htable ↦ hbuilt.not_freed hkernel htable, hrestored,
      tableCapacity_congr hspaces.ready hspent (hbuilt.spent hspaces.ready hspent) hready
        ⟨hbuilt.source.pool_eq, hbase.trans hbuilt.source.base_eq,
          htotal.trans hbuilt.source.total_eq⟩ hrestored⟩

end Run

/-! ### With and without a pool -/

/-- A pool of which some is used, and 8 MB from 8 MB on. -/
def poolUsed (used : Word) : TableSupply :=
  ⟨0x100000#64, used, pmmInit Pmm.bss 0x800000#64 0x800000#64⟩

/-- Zero memory with the kernel's PML4 at 0x1000. -/
theorem spaces_zeroMemory {used : Word} (hmod : used.toNat % 4096 = 0)
    (hle : used.toNat ≤ 262144) :
    Spaces (fun root ↦ root = 0x1000#64) (fun _ ↦ 0#8) (poolUsed used) := by
  have hpool : (poolUsed used).ptPool.toNat = 0x100000 := rfl
  have hready : SupplyReady (poolUsed used) :=
    ⟨regionReady_largeBoot, by rw [hpool], by rw [hpool]; decide, hmod, hle⟩
  have haligned : PageAligned 0x1000#64 := rfl
  have hroot : (0x1000#64 : Word).toNat = 0x1000 := rfl
  refine (spaces_of_zeroPage hready haligned (fun _ _ ↦ rfl) ?_).1
  rintro (⟨number, -, -, haddress⟩ | hfree)
  · rw [hroot, hpool] at haddress
    omega
  · have hge := hfree.inRegion.1
    have hbase := hready.region.base_ge
    omega

/-- An empty table comes without entries. -/
theorem cleanPml4_zeroMemory {used : Word} (hready : SupplyReady (poolUsed used)) :
    CleanPml4 0x1000#64 (fun _ ↦ 0#8) (poolUsed used) :=
  cleanPml4_of_cleanTables 0x1000#64 hready (cleanTables_of_zero hready fun _ _ _ _ ↦ rfl)

/-- With the pool used up, a new page directory and a page mapped in it take four pages. -/
theorem spentDirectory_maps : ∃ pml4 created mapped,
    vmmNewPagedir 0x1000#64 (fun _ ↦ 0#8) (poolUsed 262144#64) = some (pml4, created) ∧
      vmmMap allocTable pml4 0x400000#64 0x5000#64 7#64 created.1 created.2 = some mapped ∧
        pmmFreeCount mapped.2.pmm = 2044#64 := by
  have hcomputes : ((vmmNewPagedir 0x1000#64 (fun _ ↦ 0#8) (poolUsed 262144#64)).bind
      fun directory ↦ (vmmMap allocTable directory.1 0x400000#64 0x5000#64 7#64 directory.2.1
        directory.2.2).map fun mapped ↦ pmmFreeCount mapped.2.pmm) = some 2044#64 := by
    decide +kernel
  obtain ⟨⟨pml4, created⟩, hnew, hrest⟩ := Option.bind_eq_some_iff.mp hcomputes
  obtain ⟨mapped, hmap, hcount⟩ := Option.map_eq_some_iff.mp hrest
  exact ⟨pml4, created, mapped, hnew, hmap, hcount⟩

/-- With the pool used up, a page directory in which a page was mapped and unmapped is undone: the
four pages that it took from the page allocator come back. -/
theorem freePagedir_run_spent : ∃ pml4 created s,
    vmmNewPagedir 0x1000#64 (fun _ ↦ 0#8) (poolUsed 262144#64) =
        some (pml4, created.1, created.2) ∧
      ((userSystem pml4 created).restrict (DirectoriesZero pml4)).Run
          [.map 0x400000#64 0x5000#64 7#64, .unmap 0x400000#64] s ∧
        pmmFreeCount s.2.pmm = 2044#64 ∧
          PagedirUndone 0x1000#64 pml4 (poolUsed 262144#64) s := by
  have hspaces : Spaces (fun root ↦ root = 0x1000#64) (fun _ ↦ 0#8) (poolUsed 262144#64) :=
    spaces_zeroMemory (by decide) (by decide)
  have hspent : PoolSpent (poolUsed 262144#64) := by
    rw [PoolSpent]
    decide
  have hclean := cleanPml4_zeroMemory hspaces.ready
  obtain ⟨pml4, created, mapped, hnew, hmap, hcount⟩ := spentDirectory_maps
  have hcreated := newPagedir_created hspaces rfl hclean hnew
  have hzero : ∀ page, Available created.2 page → ZeroPage created.1 page := by
    intro page hpage position hposition
    obtain ⟨hbefore, hne⟩ := (hcreated.rest page).mp hpage
    have haligned := hspaces.ready.pageAligned hbefore
    have halignedNew := hspaces.ready.pageAligned hcreated.available
    refine hcreated.frame position fun hinside ↦ hne (BitVec.eq_of_toNat_eq ?_)
    rw [InPage] at hposition hinside
    rw [PageAligned] at haligned halignedNew
    omega
  have hready : SupplyReady created.2 := hcreated.spaces.ready
  have hrun : ((userSystem pml4 created).restrict (DirectoriesZero pml4)).Run
      [.map 0x400000#64 0x5000#64 7#64, .unmap 0x400000#64]
        (vmmUnmap pml4 0x400000#64 mapped.1, mapped.2) := by
    refine ((TransitionSystem.Run.start rfl).step (And.intro ?_ hmap)).step ⟨trivial, rfl⟩
    exact cleanTables_of_zero hready hzero
  exact ⟨pml4, created, _, hnew, hrun, hcount,
    (freePagedir_run hspaces rfl hclean hnew hrun).mpr hspent⟩

/-- With the pool unused, a new page directory that is freed at once is not undone. -/
theorem pagedir_not_undone : ∃ pml4 s,
    vmmNewPagedir 0x1000#64 (fun _ ↦ 0#8) (poolUsed 0#64) = some (pml4, s.1, s.2) ∧
      ¬ PagedirUndone 0x1000#64 pml4 (poolUsed 0#64) s := by
  have hspaces : Spaces (fun root ↦ root = 0x1000#64) (fun _ ↦ 0#8) (poolUsed 0#64) :=
    spaces_zeroMemory (by decide) (by decide)
  obtain ⟨pml4, next, supply, hnew, -⟩ :=
    vmmNewPagedir_pool 0x1000#64 (fun _ ↦ 0#8) hspaces.ready (by decide)
  have hcreated := newPagedir_created hspaces rfl (cleanPml4_zeroMemory hspaces.ready) hnew
  have hpool : ¬ PoolSpent (poolUsed 0#64) := by
    rw [PoolSpent]
    decide
  have hpair : vmmNewPagedir 0x1000#64 (fun _ ↦ 0#8) (poolUsed 0#64) =
      some (pml4, (next, supply).1, (next, supply).2) := hnew
  have hlow := pml4_low_of_pool hspaces.ready hpool hpair
  refine ⟨pml4, (next, supply), hnew, fun hundone ↦ ?_⟩
  exact (hcreated.built hspaces).not_restored hlow ((hundone.restored pml4).mpr hcreated.available)

end Colix.Mm
