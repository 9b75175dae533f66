import Colix.Mm.HeapRun
import Colix.Proc.DirectPages

/-!
# Pages of the page allocator as addresses

Over a region apart from the heap every page that `pmm_alloc` returns is direct, so it is its own
address, and no block of the heap. `identityPages_run` carries this over every run that maps nothing
at a direct page. A region that starts below the heap has pages at the heap's addresses left
(`lowRegion_resolves_elsewhere`).
-/

set_option autoImplicit false
set_option relaxedAutoImplicit false

namespace Colix.Proc

open Foundation Mm

/-! ### Every run -/

/-- The page is its own address, and meets no block that `kmalloc` returned. -/
structure IdentityPage (kernelPml4 : Word) (s : SpaceState) (page : Word) : Prop where
  resolves : vmmResolve kernelPml4 page s.memory = page
  off_heap : ∀ events heap ptr position, heapSystem.Run events heap →
    LivePayload heap ptr position →
    position < page.toNat ∨ page.toNat + 4096 ≤ position

/-- What `pmm_alloc` returns, itself or in a call that takes several pages, is its own address from
then on; and so are the tables in use. -/
structure PagesIdentity (kernelPml4 : Word) (s later : SpaceState) : Prop where
  alloc : ∀ page pmm, pmmAlloc s.supply.pmm = (page, pmm) → page ≠ 0#64 →
    IdentityPage kernelPml4 later page
  free : ∀ page, FreePage s.supply.pmm page → IdentityPage kernelPml4 later page
  tables : ∀ root table, later.Root kernelPml4 root → TableOf later.memory root table →
    IdentityPage kernelPml4 later table

section Run

variable {kernelPml4 page : Word} {pmm : Pmm} {s later : SpaceState}

/-- A direct page is its own address. -/
theorem DirectInvariant.identityPage (hinv : DirectInvariant kernelPml4 (Direct pmm) s)
    (hpage : Direct pmm page) : IdentityPage kernelPml4 s page := by
  have haligned : page.toNat % 4096 = 0 := hpage.1
  constructor
  · exact vmmResolve_of_pageAligned hpage.1 (hinv.mapped kernelPml4 page (Or.inl rfl) hpage)
  · intro events heap ptr position hrun hpayload
    obtain ⟨hge, hlt⟩ := livePayload_inHeap hrun hpayload
    have hnot : ¬ InHeap page := by
      rcases hpage.2 with hlow | ⟨-, -, hnot⟩
      · exact fun hheap ↦ absurd hheap.1 (by omega)
      · exact hnot
    rw [InHeap] at hnot
    omega

/-- What is free in a state is direct, and stays so. -/
theorem DirectInvariant.pagesIdentity (hinv : DirectInvariant kernelPml4 (Direct pmm) s)
    (hlater : DirectInvariant kernelPml4 (Direct pmm) later) :
    PagesIdentity kernelPml4 s later := by
  have hfree : ∀ page, FreePage s.supply.pmm page → IdentityPage kernelPml4 later page :=
    fun page hpage ↦ hlater.identityPage (hinv.available page (Or.inr hpage))
  refine ⟨fun page pmmNext halloc hne ↦ ?_, hfree, fun root table hroot htable ↦ ?_⟩
  · exact hfree page (took_of_pmmAllocPage hinv.spaces.ready.region halloc hne).free
  · exact hlater.identityPage (hlater.tables root table hroot htable)

end Run

/-- In every run after `vmm_init` from the boot page tables, over a region apart from the heap, the
pages that `pmm_alloc` returns are their own addresses, at every later point of the run. -/
theorem identityPages_run {layout : BootLayout} {memory : Memory} {before : Pmm}
    {memBase memSize : Word} (hbss : BssCleared layout memory)
    (hbase : 0x200000 ≤ (regionBase memBase).toNat)
    (hfits : (regionBase memBase).toNat + regionPages memSize * 4096 ≤ 2 ^ 48)
    (hclean : CleanWindow layout.pml4Table (bootState layout memory before memBase memSize))
    (hapart : RegionApart (regionBase memBase).toNat (regionPages memSize))
    {events laterEvents : List SpaceEvent} {s later : SpaceState}
    (hrun : (directSystem layout.pml4Table
      (bootState layout memory before memBase memSize)).Run events s)
    (hlater : (directSystem layout.pml4Table
      (bootState layout memory before memBase memSize)).Path s laterEvents later) :
    PagesIdentity layout.pml4Table s later := by
  have hstep : ∀ state event next,
      DirectInvariant layout.pml4Table (Direct (pmmInit before memBase memSize)) state →
        (directSystem layout.pml4Table (bootState layout memory before memBase memSize)).step
            state event next →
          DirectInvariant layout.pml4Table (Direct (pmmInit before memBase memSize)) next :=
    fun state event next hstate hstep ↦ DirectInvariant.directStep hstate hstep
  have hinv := hrun.invariant
    (fun _ hstart ↦ directInvariant_booted hbss hbase hfits hclean hapart hstart) hstep
  exact hinv.pagesIdentity (hlater.preserves hstep hinv)

/-! ### A region that starts below the heap -/

/-- After `vmm_init` the next page of a region that starts below the heap and has more pages than
the heap is at an address of the heap, where another page is mapped. -/
theorem lowRegion_resolves_elsewhere {kernelPml4 : Word} {start : TableSupply} {memory : Memory}
    (hmapped : PoolMapped kernelPml4 start ∅ memory start)
    (htaken : PagesTaken start.pmm 0 start.pmm) (hbelow : start.pmm.pmmBase.toNat < 0x400000)
    (htotal : 1024 < start.pmm.pmmTotalPages.toNat)
    (hend : start.pmm.pmmBase.toNat + start.pmm.pmmTotalPages.toNat * 4096 ≤ 0x8200000) :
    ∃ next supply pmm, vmmInit kernelPml4 (memory, start) = some (next, supply) ∧
      pmmAlloc supply.pmm = (pageFrom start.pmm.pmmBase 1024, pmm) ∧
        vmmResolve kernelPml4 (pageFrom start.pmm.pmmBase 1024) next =
          start.pmm.pmmBase + start.pmm.pmmBase := by
  have hbase := hmapped.spaces.ready.region.base_ge
  have hmod := hmapped.spaces.ready.region.base_mod
  have hsuffices : PoolSuffices start (Finset.Icc 1 64) :=
    poolSuffices_Icc (by decide) (by decide) (by omega) (by omega) (by decide)
  obtain ⟨next, supply, hinit, -, -, hpages, hheap⟩ :=
    vmmInit_pool hsuffices (by omega) hmapped htaken
  have hcount : 1024 < supply.pmm.pmmTotalPages.toNat := by
    rw [hpages.total_eq]
    exact htotal
  obtain ⟨pmm, halloc, -, -⟩ := hpages.pmmAlloc hcount
  rw [hpages.base_eq] at halloc
  refine ⟨next, supply, pmm, hinit, halloc, ?_⟩
  -- the page is the heap's page whose number is that of the base
  have haddress : (pageFrom start.pmm.pmmBase 1024).toNat = start.pmm.pmmBase.toNat + 1024 * 4096 :=
    toNat_pageFrom (by omega)
  have hsame : pageFrom start.pmm.pmmBase 1024 =
      pageFrom kheapStart (start.pmm.pmmBase.toNat / 4096) := by
    apply BitVec.eq_of_toNat_eq
    rw [haddress, toNat_pageFrom_heap (by omega)]
    omega
  have hbound := hheap (start.pmm.pmmBase.toNat / 4096) (by omega)
  have hdouble : pageFrom start.pmm.pmmBase (start.pmm.pmmBase.toNat / 4096) =
      start.pmm.pmmBase + start.pmm.pmmBase := by
    apply BitVec.eq_of_toNat_eq
    rw [toNat_pageFrom (by omega), BitVec.toNat_add]
    omega
  rw [← hsame, hdouble] at hbound
  refine vmmResolve_of_pageAligned ?_ hbound
  rw [PageAligned, haddress]
  omega

/-- A machine with 10 MB, right after boot: 8 MB from 2 MB on. -/
def lowBoot : Memory × TableSupply :=
  bootState BootLayout.low (fun _ ↦ 0#8) Pmm.bss 0x200000#64 0x800000#64

/-- On it the first page that `pmm_alloc` returns after `vmm_init` is 0x600000, which resolves to
0x400000. -/
theorem lowRegion_not_identity : ∃ next supply pmm,
    vmmInit BootLayout.low.pml4Table lowBoot = some (next, supply) ∧
      pmmAlloc supply.pmm = (0x600000#64, pmm) ∧
        vmmResolve BootLayout.low.pml4Table 0x600000#64 next = 0x400000#64 := by
  have hbss : BssCleared BootLayout.low fun _ ↦ 0#8 := fun _ _ _ ↦ rfl
  have hregion : RegionReady (pmmInit Pmm.bss 0x200000#64 0x800000#64) :=
    regionReady_pmmInit Pmm.bss (by decide) (by decide)
  have hmapped : PoolMapped BootLayout.low.pml4Table lowBoot.2 ∅ lowBoot.1 lowBoot.2 := by
    have hboot := poolMapped_boot hbss hregion
    simpa only [lowBoot] using hboot
  have htaken : PagesTaken lowBoot.2.pmm 0 lowBoot.2.pmm := by
    have hpages := pagesTaken_pmmInit Pmm.bss 0x200000#64 0x800000#64 hregion
    simpa only [lowBoot, bootState] using hpages
  have htotal : lowBoot.2.pmm.pmmTotalPages.toNat = 2048 :=
    toNat_totalPages_pmmInit Pmm.bss 0x200000#64 0x800000#64
  have hbase : lowBoot.2.pmm.pmmBase = 0x200000#64 := by decide
  obtain ⟨next, supply, pmm, hinit, halloc, hresolve⟩ := lowRegion_resolves_elsewhere hmapped htaken
    (by rw [hbase]; decide) (by rw [htotal]; decide) (by rw [hbase, htotal]; decide)
  rw [hbase, show pageFrom 0x200000#64 1024 = 0x600000#64 from by decide] at halloc hresolve
  rw [Prod.mk.eta] at hinit
  exact ⟨next, supply, pmm, hinit, halloc, hresolve⟩

/-- With 8 MB from 8 MB on, the first pages are 0xC00000 and 0xC01000, which are their own addresses
also after the first was mapped at 1 GB. -/
theorem identityPages_run_mapped : ∃ s later pmm,
    (directSystem BootLayout.low.pml4Table largeBoot).Run [.alloc 0xC00000#64] s ∧
      (directSystem BootLayout.low.pml4Table largeBoot).Path s
          [.map BootLayout.low.pml4Table 0x40000000#64 0xC00000#64 3#64] later ∧
        pmmAlloc s.supply.pmm = (0xC01000#64, pmm) ∧
          PagesIdentity BootLayout.low.pml4Table s later := by
  have hbss : BssCleared BootLayout.low fun _ ↦ 0#8 := fun _ _ _ ↦ rfl
  obtain ⟨-, -, -, -, -, -, -, hclean⟩ := vmmInit_largeBoot
  obtain ⟨memory, supply, first, second, next, supplyNext, hinit, halloc, hsecond, hsupply, hused,
    hmap, -⟩ := largeBoot_maps
  have hcleanMap : CleanDirectories memory { supply with pmm := first } BootLayout.low.pml4Table
      0x40000000#64 :=
    cleanDirectories_of_pool _ _ hsupply (show supply.ptPoolUsed.toNat + 2 * 4096 ≤ 262144 by omega)
  have hstart : (directSystem BootLayout.low.pml4Table largeBoot).Run []
      ⟨memory, supply, [], []⟩ := TransitionSystem.Run.start ⟨hinit, rfl, rfl⟩
  have hrun : (directSystem BootLayout.low.pml4Table largeBoot).Run [.alloc 0xC00000#64]
      ⟨memory, { supply with pmm := first }, [], [0xC00000#64]⟩ :=
    hstart.step ⟨⟨trivial, fun _ _ ↦ trivial⟩, SpaceStep.alloc halloc (by decide)⟩
  have hlater : (directSystem BootLayout.low.pml4Table largeBoot).Path
      ⟨memory, { supply with pmm := first }, [], [0xC00000#64]⟩
      [.map BootLayout.low.pml4Table 0x40000000#64 0xC00000#64 3#64]
      ⟨next, supplyNext, [], [0xC00000#64]⟩ :=
    (TransitionSystem.Path.refl _).step
      ⟨⟨hcleanMap, fun page hpage ↦ direct_largeBoot_ne hpage (by decide) (by decide) (by decide)⟩,
        SpaceStep.map (Or.inl rfl) hmap⟩
  refine ⟨_, _, second, hrun, hlater, hsecond, ?_⟩
  rw [largeBoot] at hrun hlater hclean
  exact identityPages_run hbss (by decide) (by decide) hclean (Or.inl (by decide)) hrun hlater

end Colix.Proc
