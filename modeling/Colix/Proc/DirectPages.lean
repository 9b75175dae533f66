import Colix.Mm.VmmInitPool
import Colix.Proc.SpaceSystem

/-!
# Direct pages

The kernel uses the pages that `pmm_alloc` returns by their physical addresses: `vmm_map` and
`alloc_table` write to page tables so, and `proc_create_elf` makes stacks of pages. The pages for
which this is right are the direct ones: those of the first 2 MiB, and those of the region that are
not at the heap's addresses, which `vmm_init` bound to other pages.

A run that maps nothing at a direct page keeps them mapped to themselves in every address space
(`DirectMapped`). `RegionApart` is the condition on the region under which all that `pmm_alloc` can
return after `vmm_init` is direct, so that the page tables are too and lie where the kernel reaches
them (`DirectInvariant`, `TablesInPlace`).
-/

set_option autoImplicit false
set_option relaxedAutoImplicit false

namespace Colix.Proc

open Foundation Mm

/-! ### Direct pages -/

/-- A page that is its own address: of the first 2 MiB, or of the region and not of the heap. -/
def Direct (pmm : Pmm) (page : Word) : Prop :=
  PageAligned page ∧ (page.toNat < 0x200000 ∨
    (pmm.pmmBase.toNat ≤ page.toNat ∧
      page.toNat < pmm.pmmBase.toNat + pmm.pmmTotalPages.toNat * 4096 ∧ ¬ InHeap page))

/-- The region lies above the heap; or `pt_pool` has tables for it, and it starts in the heap or has
no page beyond the heap's 1024. -/
def RegionApart (base total : ℕ) : Prop :=
  0x800000 ≤ base ∨ (base + total * 4096 ≤ 0x8400000 ∧ (0x400000 ≤ base ∨ total ≤ 1024))

/-- A step that maps nothing at a direct page. -/
def AvoidsDirect (pmm : Pmm) (event : SpaceEvent) : Prop :=
  ∀ page, Direct pmm page → event.Avoids (virtualPage page)

/-! ### The invariants -/

/-- What runs keep of a set of direct pages: they are mapped to themselves in every address
space. -/
structure DirectMapped (kernelPml4 : Word) (direct : Word → Prop) (s : SpaceState) : Prop
    extends SpaceInvariant kernelPml4 s where
  mapped : ∀ root page, s.Root kernelPml4 root → direct page →
    pageMap s.memory root (virtualPage page) = some page

/-- The page tables in use are direct pages. -/
def TablesDirect (kernelPml4 : Word) (direct : Word → Prop) (s : SpaceState) : Prop :=
  ∀ root table, s.Root kernelPml4 root → TableOf s.memory root table → direct table

/-- All pages that are in use as tables, can be handed out, or may be freed are direct. -/
structure DirectInvariant (kernelPml4 : Word) (direct : Word → Prop) (s : SpaceState) : Prop
    extends DirectMapped kernelPml4 direct s where
  available : ∀ page, Available s.supply page → direct page
  held : ∀ page ∈ s.held, direct page
  tables : TablesDirect kernelPml4 direct s

/-- The kernel reaches the page tables where they lie: in every address space each table in use is
its own address. -/
def TablesInPlace (kernelPml4 : Word) (s : SpaceState) : Prop :=
  ∀ root owner table, s.Root kernelPml4 root → s.Root kernelPml4 owner →
    TableOf s.memory owner table → vmmResolve root table s.memory = table

section Invariant

variable {kernelPml4 root virt : Word} {direct : Word → Prop} {s next : SpaceState}
  {event : SpaceEvent}

/-- Every step keeps the mappings of the direct pages. Assumes: its directories come zeroed, and it
maps nothing at a direct page. -/
theorem DirectMapped.step (hinv : DirectMapped kernelPml4 direct s)
    (hclean : CleanStep kernelPml4 s event)
    (havoids : ∀ page, direct page → event.Avoids (virtualPage page))
    (hstep : SpaceStep kernelPml4 s event next) : DirectMapped kernelPml4 direct next := by
  refine ⟨hinv.toSpaceInvariant.step hclean hstep, fun root page hroot hpage ↦ ?_⟩
  have hkept : s.Root kernelPml4 root →
      pageMap next.memory root (virtualPage page) = some page := fun hold ↦
    hinv.toSpaceInvariant.kept hclean hstep hold (havoids page hpage)
      (hinv.mapped root page hold hpage)
  cases hstep with
  | create hcreate =>
    obtain ⟨userStack, hcreated⟩ := elfCreated hinv.spaces (Or.inl rfl) hclean hcreate
    rw [root_append_iff] at hroot
    rcases hroot with rfl | hold
    · exact hcreated.kernelPage (Or.inl rfl) (havoids page hpage)
        (hinv.mapped kernelPml4 page (Or.inl rfl) hpage)
    · exact hkept hold
  | alloc | free | map | unmap | write => exact hkept hroot

/-- Tables that are direct pages are in place. -/
theorem DirectMapped.tablesInPlace (hinv : DirectMapped kernelPml4 direct s)
    (htables : TablesDirect kernelPml4 direct s) : TablesInPlace kernelPml4 s :=
  fun root owner table hroot howner htable ↦
    vmmResolve_of_pageAligned (hinv.spaces.pageAligned howner htable)
      (hinv.mapped root table hroot (htables owner table howner htable))

/-- Every step keeps the direct pages. Assumes: its directories come zeroed, and it maps nothing at
a direct page. -/
theorem DirectInvariant.step (hinv : DirectInvariant kernelPml4 direct s)
    (hclean : CleanStep kernelPml4 s event)
    (havoids : ∀ page, direct page → event.Avoids (virtualPage page))
    (hstep : SpaceStep kernelPml4 s event next) : DirectInvariant kernelPml4 direct next := by
  have hnext := hinv.toDirectMapped.step hclean havoids hstep
  have hupdate : ∀ {root virt : Word} {value : Option Word} {memory : Memory}
      {supply : TableSupply},
        SpaceUpdate (s.Root kernelPml4) root virt value s.memory s.supply memory supply →
          (∀ page, Available supply page → direct page) ∧ ∀ root table,
            s.Root kernelPml4 root → TableOf memory root table → direct table := by
    intro root virt value memory supply hupdate
    refine ⟨fun page hpage ↦ hinv.available page (hupdate.available page hpage),
      fun root table hroot htable ↦ ?_⟩
    rcases hupdate.tables root table hroot htable with hold | hpage
    · exact hinv.tables root table hroot hold
    · exact hinv.available table hpage
  cases hstep with
  | create hcreate =>
    obtain ⟨userStack, hcreated⟩ := elfCreated hinv.spaces (Or.inl rfl) hclean hcreate
    refine ⟨hnext, fun page hpage ↦ hinv.available page
      (hcreated.available page hpage), hinv.held, fun root table hroot htable ↦ ?_⟩
    rw [root_append_iff] at hroot
    rcases hcreated.tables root table hroot htable with hpage | ⟨owner, howner, hold⟩
    · exact hinv.available table hpage
    · exact hinv.tables owner table howner hold
  | alloc halloc hne =>
    have htook := took_of_pmmAllocPage hinv.spaces.ready.region halloc hne
    have hsupply := htook.supply hinv.spaces.ready
    refine ⟨hnext, fun page hpage ↦ hinv.available page (hsupply.rest page hpage).1,
      fun page hpage ↦ ?_, hinv.tables⟩
    rcases List.mem_cons.mp hpage with rfl | hold
    · exact hinv.available page hsupply.available
    · exact hinv.held page hold
  | free hpage =>
    obtain ⟨-, havailable⟩ := available_of_pmmFree hinv.spaces.ready (hinv.held_aligned _ hpage)
    refine ⟨hnext, fun page hfree ↦ ?_, fun page hmem ↦
      hinv.held page (List.mem_of_mem_erase hmem), hinv.tables⟩
    rcases havailable page hfree with hold | rfl
    · exact hinv.available page hold
    · exact hinv.held page hpage
  | map hroot hmap =>
    obtain ⟨havailable, htables⟩ := hupdate (hinv.spaces.map hroot hclean hmap)
    exact ⟨hnext, havailable, hinv.held, htables⟩
  | unmap hroot =>
    obtain ⟨havailable, htables⟩ := hupdate (hinv.spaces.unmap hroot _)
    exact ⟨hnext, havailable, hinv.held, htables⟩
  | write hagree =>
    obtain ⟨-, hsame⟩ := hinv.toSpaceInvariant.write hagree
    refine ⟨hnext, hinv.available, hinv.held, ?_⟩
    rintro root table hroot ⟨path, hlength, hreach⟩
    exact hinv.tables root table hroot
      ⟨path, hlength, (hsame root hroot path (by omega)).symm.trans hreach⟩

end Invariant

/-! ### After `vmm_init` -/

section Boot

variable {kernelPml4 : Word} {start supply : TableSupply} {memory next : Memory}

/-- In a region apart from the heap that starts below its end, `vmm_init` takes its tables from the
pool, and every page it leaves free lies above the heap. -/
theorem pool_of_regionApart
    (hapart : RegionApart start.pmm.pmmBase.toNat start.pmm.pmmTotalPages.toNat)
    (hbelow : start.pmm.pmmBase.toNat < 0x800000)
    (hmapped : PoolMapped kernelPml4 start ∅ memory start)
    (htaken : PagesTaken start.pmm 0 start.pmm)
    (hinit : vmmInit kernelPml4 (memory, start) = some (next, supply)) :
    (∀ table, TableOf next kernelPml4 table → table.toNat < 0x200000) ∧
      ∀ page, FreePage supply.pmm page → 0x800000 ≤ page.toNat ∧
        page.toNat < start.pmm.pmmBase.toNat + start.pmm.pmmTotalPages.toNat * 4096 := by
  have hbase := hmapped.spaces.ready.region.base_ge
  obtain ⟨allowed, hsuffices⟩ : ∃ allowed, PoolSuffices start allowed := by
    rw [RegionApart] at hapart
    by_cases hheap : 0x400000 ≤ start.pmm.pmmBase.toNat
    · exact ⟨Finset.Icc 2 65, poolSuffices_Icc (by decide) (by decide) (by omega) (by omega)
        (by decide)⟩
    · exact ⟨Finset.Icc 1 3, poolSuffices_Icc (by decide) (by decide) (by omega) (by omega)
        (by decide)⟩
  obtain ⟨⟨touched, -, hpool⟩, hpages, -⟩ := hsuffices.vmmInit_heapTaken hmapped htaken hinit
  refine ⟨hpool.below, fun page hfree ↦ ?_⟩
  obtain ⟨number, hge, hlt, haddress⟩ := hpages.freePage_iff.mp hfree
  rw [hpages.total_eq] at hlt
  rw [hpages.base_eq] at haddress
  rw [RegionApart] at hapart
  omega

/-- `vmm_init` maps the direct pages to themselves. -/
theorem directMapped_of_vmmInit
    (hmapped : KernelMapped kernelPml4 start memory start)
    (hbound : start.pmm.pmmBase.toNat + start.pmm.pmmTotalPages.toNat * 4096 ≤ 2 ^ 48)
    (hclean : CleanWindow kernelPml4 (memory, start))
    (hinit : vmmInit kernelPml4 (memory, start) = some (next, supply)) :
    DirectMapped kernelPml4 (Direct start.pmm) ⟨next, supply, [], []⟩ := by
  have hready := vmmInit_ready hmapped hbound hclean hinit
  refine ⟨spaceInvariant_start hready.spaces, ?_⟩
  rintro root page hroot ⟨haligned, hdirect⟩
  obtain rfl : root = kernelPml4 := hroot.resolve_right (by simp)
  rcases hdirect with hlow | ⟨hge, hlt, hheap⟩
  · exact hready.low page haligned hlow
  · exact hready.window page haligned hge hlt hheap

/-- `vmm_init` leaves only direct pages free, and uses only direct pages as tables. -/
theorem directInvariant_of_vmmInit
    (hapart : RegionApart start.pmm.pmmBase.toNat start.pmm.pmmTotalPages.toNat)
    (hbound : start.pmm.pmmBase.toNat + start.pmm.pmmTotalPages.toNat * 4096 ≤ 2 ^ 48)
    (hmapped : PoolMapped kernelPml4 start ∅ memory start)
    (htaken : PagesTaken start.pmm 0 start.pmm) (hclean : CleanWindow kernelPml4 (memory, start))
    (hinit : vmmInit kernelPml4 (memory, start) = some (next, supply)) :
    DirectInvariant kernelPml4 (Direct start.pmm) ⟨next, supply, [], []⟩ := by
  have hready := vmmInit_ready hmapped.toKernelMapped hbound hclean hinit
  have habove : ∀ page, FreePage start.pmm page → 0x800000 ≤ start.pmm.pmmBase.toNat →
      Direct start.pmm page := by
    intro page hfree hbase
    have hregion := hfree.inRegion
    have haligned := hmapped.spaces.ready.region.pageAligned hfree
    refine ⟨haligned, Or.inr ⟨hregion.1, hregion.2, fun hheap ↦ ?_⟩⟩
    have hlt := hheap.2
    omega
  refine ⟨directMapped_of_vmmInit hmapped.toKernelMapped hbound hclean hinit, ?_, by simp, ?_⟩
  · intro page hpage
    have haligned := hready.spaces.ready.pageAligned hpage
    rcases hpage.low_or_free hready.spaces.ready with hlow | hfree
    · exact ⟨haligned, Or.inl hlow⟩
    · rcases Nat.lt_or_ge start.pmm.pmmBase.toNat 0x800000 with hbelow | hbase
      · obtain ⟨hge, hlt⟩ :=
          (pool_of_regionApart hapart hbelow hmapped htaken hinit).2 page hfree
        refine ⟨haligned, Or.inr ⟨by omega, hlt, fun hheap ↦ ?_⟩⟩
        have hend := hheap.2
        omega
      · rcases hready.free_of_available hpage with hlow | hold
        · exact ⟨haligned, Or.inl hlow⟩
        · exact habove page hold hbase
  · intro root table hroot htable
    have hkernel : root = kernelPml4 := hroot.resolve_right (by simp)
    subst hkernel
    have haligned := hready.spaces.pageAligned rfl htable
    rcases Nat.lt_or_ge start.pmm.pmmBase.toNat 0x800000 with hbelow | hbase
    · exact ⟨haligned, Or.inl
        ((pool_of_regionApart hapart hbelow hmapped htaken hinit).1 table htable)⟩
    · rcases hready.tables table htable with hlow | hfree
      · exact ⟨haligned, Or.inl hlow⟩
      · exact habove table hfree hbase

/-- So it is after `vmm_init` from the boot page tables, over a region apart from the heap. -/
theorem directInvariant_booted {layout : BootLayout} {memory : Memory} {before : Pmm}
    {memBase memSize : Word} (hbss : BssCleared layout memory)
    (hbase : 0x200000 ≤ (regionBase memBase).toNat)
    (hfits : (regionBase memBase).toNat + regionPages memSize * 4096 ≤ 2 ^ 48)
    (hclean : CleanWindow layout.pml4Table (bootState layout memory before memBase memSize))
    (hapart : RegionApart (regionBase memBase).toNat (regionPages memSize)) {s : SpaceState}
    (hstart : Booted layout.pml4Table (bootState layout memory before memBase memSize) s) :
    DirectInvariant layout.pml4Table (Direct (pmmInit before memBase memSize)) s := by
  have hregion : RegionReady (pmmInit before memBase memSize) :=
    regionReady_pmmInit before hbase (by omega)
  have hmapped := poolMapped_boot hbss hregion
  have htaken := pagesTaken_pmmInit before memBase memSize hregion
  have htotal : (pmmInit before memBase memSize).pmmTotalPages.toNat = regionPages memSize :=
    toNat_totalPages_pmmInit before memBase memSize
  have hpmmBase : (pmmInit before memBase memSize).pmmBase = regionBase memBase := rfl
  obtain ⟨next, supply, processes, held⟩ := s
  obtain ⟨hinit, rfl, rfl⟩ := hstart
  rw [bootState] at hclean hinit
  simp only [bootState] at hmapped
  generalize hstart : TableSupply.mk layout.ptPool 0#64 (pmmInit before memBase memSize) = start
    at hmapped hclean hinit
  have hpmm : pmmInit before memBase memSize = start.pmm := by rw [← hstart]
  rw [← hpmmBase, ← htotal] at hapart hfits
  rw [hpmm] at hapart hfits htaken ⊢
  exact directInvariant_of_vmmInit hapart hfits hmapped htaken hclean hinit

end Boot

/-! ### Runs that keep the direct pages -/

/-- The runs after `vmm_init` whose directories come zeroed and that map nothing at a direct
page. -/
def directSystem (kernelPml4 : Word) (boot : Memory × TableSupply) :
    TransitionSystem SpaceState SpaceEvent :=
  (spaceSystem kernelPml4 (Booted kernelPml4 boot)).restrict
    fun s event ↦ CleanStep kernelPml4 s event ∧ AvoidsDirect boot.2.pmm event

/-- Their steps keep the direct pages. -/
theorem DirectInvariant.directStep {kernelPml4 : Word} {boot : Memory × TableSupply}
    {s next : SpaceState} {event : SpaceEvent}
    (hinv : DirectInvariant kernelPml4 (Direct boot.2.pmm) s)
    (hstep : (directSystem kernelPml4 boot).step s event next) :
    DirectInvariant kernelPml4 (Direct boot.2.pmm) next :=
  hinv.step hstep.1.1 hstep.1.2 hstep.2

/-- The direct pages of the machine with 8 MB from 8 MB on lie below 2 MB and in those 8 MB. -/
theorem direct_largeBoot_ne {page virt : Word} (hpage : Direct largeBoot.2.pmm page)
    (hlow : 0x200000 ≤ virt.toNat) (hhigh : virt.toNat < 2 ^ 48)
    (houtside : virt.toNat < 0x800000 ∨ 0x1000000 ≤ virt.toNat) :
    virtualPage page ≠ virtualPage virt := by
  have hbase : largeBoot.2.pmm.pmmBase.toNat = 0x800000 := by decide
  have htotal : largeBoot.2.pmm.pmmTotalPages.toNat = 2048 :=
    toNat_totalPages_pmmInit Pmm.bss 0x800000#64 0x800000#64
  have hdirect := hpage.2
  rw [hbase, htotal] at hdirect
  exact virtualPage_ne (by omega) hhigh (by omega)

end Colix.Proc
