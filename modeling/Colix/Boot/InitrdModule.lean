import Colix.Boot.MemoryRegion
import Colix.Proc.IdentityPages

/-!
# The initrd module in memory

Where the boot loader puts a module is its choice, and nothing in `kernel_main` looks at it: neither
the region given to `pmm_init` nor the mappings of `vmm_init` leave a module out. A module below
2 MiB is safe, since the region starts there and the boot page tables map what lies below.
`initrdModule_run` carries this over every run after `vmm_init`. A module above 2 MiB is not:
`module_not_intact` has one in the heap's addresses.
-/

set_option autoImplicit false
set_option relaxedAutoImplicit false

namespace Colix.Boot

open Foundation Mm Proc

/-! ### The region -/

section Region

variable {memory : Memory} {info : Word} {tags : List Tag} {region : Region}

/-- The region starts at or above 2 MiB. -/
theorem skipKernel_base (region : Region) : 0x200000 ≤ (skipKernel region).base.toNat := by
  rw [skipKernel]
  by_cases hbelow : region.base < 0x200000#64
  · have hbase : region.base.toNat < 0x200000 := BitVec.lt_def.mp hbelow
    have hskip : region.base + (0x200000#64 - region.base) = 0x200000#64 := by
      rw [BitVec.add_comm, BitVec.sub_add_cancel]
    simp only [if_pos hbelow, hskip]
    split <;> exact le_refl _
  · rw [if_neg hbelow]
    have hbase : ¬ region.base.toNat < 0x200000 := fun hlt ↦ hbelow (BitVec.lt_def.mpr hlt)
    omega

/-- The region starts at or above 2 MiB, and below 2^47 when available memory ends there. -/
theorem memoryRegion_base (hblock : InfoBlock memory info tags)
    (havailable : ∀ entry ∈ mmapEntries tags, entry.Available →
      entry.baseAddr.toNat + entry.length.toNat ≤ 2 ^ 47)
    (hregion : memoryRegion memory info = some region) :
    0x200000 ≤ region.base.toNat ∧ region.base.toNat ≤ 2 ^ 47 := by
  rw [memoryRegion, parseMmap_of_block hblock.mapBlock, Option.map_some,
    Option.some.injEq] at hregion
  subst hregion
  refine ⟨skipKernel_base _, ?_⟩
  by_cases hlarge : ∃ entry ∈ mmapEntries tags, entry.Large
  · obtain ⟨entry, hmem, hentry⟩ := hlarge
    obtain ⟨longest, hlongest, ⟨havail, hlength⟩, hbest⟩ := foldl_considerEntry_large hmem hentry
    have hend := havailable longest hlongest havail
    have hsize : 0x2000000 < longest.length.toNat := hlength
    have hlong : 0x200000 < (Region.mk longest.baseAddr longest.length).size.toNat := by
      change 0x200000 < longest.length.toNat
      omega
    rw [hbest, (skipKernel_region hlong).1]
    change max longest.baseAddr.toNat 0x200000 ≤ 2 ^ 47
    omega
  · have hnone : ∀ entry ∈ mmapEntries tags, ¬ entry.Large := fun entry hmem hentry ↦
      hlarge ⟨entry, hmem, hentry⟩
    rw [foldl_considerEntry_default hnone]
    decide

/-- Aligning the base of such a region does not wrap. -/
theorem regionBase_bounds {memBase : Word} (hlow : 0x200000 ≤ memBase.toNat)
    (hhigh : memBase.toNat ≤ 2 ^ 47) :
    0x200000 ≤ (regionBase memBase).toNat ∧ (regionBase memBase).toNat ≤ 2 ^ 47 := by
  have hround := toNat_alignUp (by decide : 12 < 64) memBase
  rw [Nat.mod_eq_of_lt (by omega)] at hround
  have hbase : (regionBase memBase).toNat =
      (memBase.toNat + (2 ^ 12 - 1)) / 2 ^ 12 * 2 ^ 12 := hround
  omega

end Region

/-! ### Runs -/

/-- The addresses from the first to the last. -/
def InRange (first last : ℕ) (address : Word) : Prop :=
  first ≤ address.toNat ∧ address.toNat < last

/-- A module: no page that `vmm_init` took or that `pmm_alloc` returns overlaps it, and its
addresses are their own. -/
structure ModuleIntact (kernelPml4 : Word) (boot : Memory × TableSupply) (first last : ℕ)
    (s : SpaceState) : Prop where
  boot_apart : ∀ page, FreePage boot.2.pmm page → page.toNat + 4096 ≤ first ∨ last ≤ page.toNat
  apart : ∀ page pmm, pmmAlloc s.supply.pmm = (page, pmm) → page ≠ 0#64 →
    page.toNat + 4096 ≤ first ∨ last ≤ page.toNat
  resolves : ∀ address, InRange first last address →
    vmmResolve kernelPml4 address s.memory = address

section Run

variable {kernelPml4 : Word} {boot : Memory × TableSupply} {first last : ℕ} {s : SpaceState}

/-- A range below 2 MiB stays mapped to itself in every run. -/
theorem lowRange_run (hmapped : KernelMapped kernelPml4 boot.2 boot.1 boot.2)
    (hbound : boot.2.pmm.pmmBase.toNat + boot.2.pmm.pmmTotalPages.toNat * 4096 ≤ 2 ^ 48)
    (hclean : CleanWindow kernelPml4 boot) (hlast : last ≤ 0x200000) {events : List SpaceEvent}
    (hrun : (keepingSystem kernelPml4 boot (InRange first last)).Run events s) :
    SpaceInvariant kernelPml4 s ∧ ∀ address, InRange first last address →
      pageMap s.memory kernelPml4 (virtualPage address) = some (pageOf address) := by
  have hboot : ∀ start, Booted kernelPml4 boot start →
      SpaceInvariant kernelPml4 start ∧ ∀ address, InRange first last address → ∃ page,
        pageMap start.memory kernelPml4 (virtualPage address) = some page ∧
          page = pageOf address := by
    rintro ⟨memory, supply, processes, held⟩ ⟨hinit, rfl, rfl⟩
    have hready := vmmInit_ready hmapped hbound hclean hinit
    refine ⟨spaceInvariant_start hready.spaces, fun address hrange ↦ ⟨pageOf address, ?_, rfl⟩⟩
    have hpage := toNat_pageOf address
    rw [InRange] at hrange
    rw [← virtualPage_pageOf]
    exact hready.low (pageOf address) (pageAligned_pageOf address) (by omega)
  obtain ⟨hinv, hself⟩ := mapped_of_keepingSystem hboot hrun
  refine ⟨hinv, fun address hrange ↦ ?_⟩
  obtain ⟨_, hpage, rfl⟩ := hself address hrange
  exact hpage

/-- A module below 2 MiB is intact in every state from `vmm_init` on. -/
theorem initrdModule_run {layout : BootLayout} {memory : Memory} {before : Pmm} {info : Word}
    {tags : List Tag} {region : Region} (hbss : BssCleared layout memory)
    (hblock : InfoBlock (setupPaging layout memory) info tags)
    (havailable : ∀ entry ∈ mmapEntries tags, entry.Available →
      entry.baseAddr.toNat + entry.length.toNat ≤ 2 ^ 47)
    (hregion : memoryRegion (setupPaging layout memory) info = some region)
    (hclean : CleanWindow layout.pml4Table
      (bootState layout memory before region.base region.size)) :
    ∀ size modStart modEnd events s, Tag.module size modStart modEnd ∈ tags →
      modEnd.toNat ≤ 0x200000 →
        (keepingSystem layout.pml4Table (bootState layout memory before region.base region.size)
          (InRange modStart.toNat modEnd.toNat)).Run events s →
            ModuleIntact layout.pml4Table
              (bootState layout memory before region.base region.size) modStart.toNat
              modEnd.toNat s := by
  intro size modStart modEnd events s _ hlast hrun
  obtain ⟨hlow, hhigh⟩ := memoryRegion_base hblock havailable hregion
  obtain ⟨hbaseLow, hbaseHigh⟩ := regionBase_bounds hlow hhigh
  have hpages : regionPages region.size ≤ 131072 := min_le_right _ _
  have hend : (regionBase region.base).toNat + regionPages region.size * 4096 ≤ 2 ^ 48 := by
    omega
  have hready : RegionReady (pmmInit before region.base region.size) :=
    regionReady_pmmInit before hbaseLow (hend.trans (by decide))
  have htotal : (pmmInit before region.base region.size).pmmTotalPages.toNat =
      regionPages region.size := toNat_totalPages_pmmInit before region.base region.size
  have hmapped := (poolMapped_boot hbss hready).toKernelMapped
  have hpmm : (bootState layout memory before region.base region.size).2.pmm =
      pmmInit before region.base region.size := rfl
  generalize bootState layout memory before region.base region.size = boot
    at hmapped hpmm hclean hrun ⊢
  have hbase : boot.2.pmm.pmmBase = regionBase region.base := by
    rw [hpmm]
    rfl
  have hbound : boot.2.pmm.pmmBase.toNat + boot.2.pmm.pmmTotalPages.toNat * 4096 ≤ 2 ^ 48 := by
    rw [hbase, hpmm, htotal]
    exact hend
  obtain ⟨hinv, hself⟩ := lowRange_run hmapped hbound hclean hlast hrun
  refine ⟨fun page hfree ↦ Or.inr ?_, fun page pmm halloc hne ↦ Or.inr ?_,
    fun address hrange ↦ vmmResolve_of_pageOf (hself address hrange)⟩
  · exact (hlast.trans hmapped.spaces.ready.region.base_ge).trans hfree.inRegion.1
  · have hfree := (took_of_pmmAllocPage hinv.spaces.ready.region halloc hne).free
    exact (hlast.trans hinv.spaces.ready.region.base_ge).trans hfree.inRegion.1

end Run

/-! ### A machine with a module -/

/-- The head of an info block of 80 bytes, and a memory map with an available entry from 1 MB to
129 MB. -/
def moduleMap : List Byte :=
  [0x50#8, 0#8, 0#8, 0#8, 0#8, 0#8, 0#8, 0#8] ++
    [6#8, 0#8, 0#8, 0#8, 0x28#8, 0#8, 0#8, 0#8, 0x18#8, 0#8, 0#8, 0#8, 0#8, 0#8, 0#8, 0#8] ++
    [0#8, 0#8, 0x10#8, 0#8, 0#8, 0#8, 0#8, 0#8, 0#8, 0#8, 0#8, 8#8, 0#8, 0#8, 0#8, 0#8,
      1#8, 0#8, 0#8, 0#8, 0#8, 0#8, 0#8, 0#8]

/-- The block with a module of one page, at a multiple of 64 KiB. -/
def moduleBlock (place : Byte) : List Byte :=
  moduleMap ++
    [3#8, 0#8, 0#8, 0#8, 0x11#8, 0#8, 0#8, 0#8, 0#8, 0#8, place, 0#8, 0#8, 0x10#8, place, 0#8,
      0#8, 0#8, 0#8, 0#8, 0#8, 0#8, 0#8, 0#8] ++
    [0#8, 0#8, 0#8, 0#8, 8#8, 0#8, 0#8, 0#8]

/-- Its tags. -/
def moduleTags (modStart modEnd : Word32) : List Tag :=
  [.mmap 40#32 24#32 [⟨0x100000#64, 0x8000000#64, 1#32⟩], .module 17#32 modStart modEnd]

theorem mmapEntries_moduleTags (modStart modEnd : Word32) :
    mmapEntries (moduleTags modStart modEnd) = [⟨0x100000#64, 0x8000000#64, 1#32⟩] := rfl

/-- Bytes that follow do not matter. -/
theorem memoryWith_append_apply {address position : ℕ} {front back : List Byte}
    (hfront : position < address + front.length) :
    memoryWith address (front ++ back) position = memoryWith address front position := by
  rw [memoryWith, memoryWith]
  split
  · rw [List.getD_append _ _ _ _ (by omega)]
  · rfl

/-- The block at 0x9000 is well formed, with the module where its bytes say. -/
theorem infoBlock_moduleBlock {place : Byte} {modStart modEnd : Word32}
    (hstart : load 32 (memoryWith 0x9000 (moduleBlock place)) 0x9038 = modStart)
    (hend : load 32 (memoryWith 0x9000 (moduleBlock place)) 0x903C = modEnd) :
    InfoBlock (setupPaging BootLayout.low (memoryWith 0x9000 (moduleBlock place))) 0x9000#64
      (moduleTags modStart modEnd) := by
  have hsize : (load 32 (memoryWith 0x9000 (moduleBlock place)) 0x9000 : Word32) = 0x50#32 := rfl
  have hsecond : TagsAt (memoryWith 0x9000 (moduleBlock place)) 0x9030
      [.module 17#32 modStart modEnd] 0x9048 := by
    refine ⟨rfl, rfl, ⟨by decide, hstart, hend⟩, ?_⟩
    have hspace : (Tag.module 17#32 modStart modEnd).space = 24 := by
      simp only [Tag.space, Tag.size]
      decide
    rw [hspace]
    exact ⟨rfl, rfl⟩
  have htags : TagsAt (memoryWith 0x9000 (moduleBlock place)) 0x9008
      (moduleTags modStart modEnd) 0x9048 := by
    have hspace : (Tag.mmap 40#32 24#32 [⟨0x100000#64, 0x8000000#64, 1#32⟩]).space = 40 := by
      decide
    have hmap : (Tag.mmap 40#32 24#32 [⟨0x100000#64, 0x8000000#64, 1#32⟩]).Contents
        (memoryWith 0x9000 moduleMap) 0x9008 := by
      refine ⟨by decide, by decide, by decide, ?_⟩
      rintro (_ | i) entry hentry
      · cases hentry
        decide
      · cases hentry
    refine ⟨rfl, rfl, hmap.congr fun byte hge hlt ↦ ?_, ?_⟩
    · rw [hspace] at hlt
      rw [moduleBlock, List.append_assoc]
      exact memoryWith_append_apply hlt
    · rw [hspace]
      exact hsecond
  have hblock : InfoBlock (memoryWith 0x9000 (moduleBlock place)) 0x9000#64
      (moduleTags modStart modEnd) := by
    have hinfo : (0x9000#64 : Word).toNat = 0x9000 := rfl
    refine ⟨by decide, ?_, ?_, ?_⟩
    · rw [hinfo, hsize]
      decide
    · rw [hinfo, hsize]
      decide
    · rw [hinfo, hsize]
      exact htags
  refine hblock.congr fun byte hge hlt ↦
    setupPaging_apply_of_disjoint BootLayout.low (Or.inl ?_)
  rw [show (0x9000#64 : Word).toNat = 0x9000 from rfl, hsize] at hlt
  exact hlt.trans (by decide)

/-- The region of the block. -/
theorem memoryRegion_moduleBlock {memory : Memory} {info : Word} {modStart modEnd : Word32}
    (hblock : InfoBlock memory info (moduleTags modStart modEnd)) :
    memoryRegion memory info = some ⟨0x200000#64, 0x7F00000#64⟩ := by
  rw [memoryRegion, parseMmap_of_block hblock.mapBlock, mmapEntries_moduleTags]
  decide

/-- The state `vmm_init` starts in on that machine. -/
def moduleBoot (place : Byte) : Memory × TableSupply :=
  bootState BootLayout.low (memoryWith 0x9000 (moduleBlock place)) Pmm.bss 0x200000#64 0x7F00000#64

/-- The boot tables are clear. -/
theorem bssCleared_moduleBlock (place : Byte) :
    BssCleared BootLayout.low (memoryWith 0x9000 (moduleBlock place)) := by
  intro position hge hlt
  have hfar : 0x110000 ≤ position := hge
  have hlength : (moduleBlock place).length ≤ position - 0x9000 := by
    change 80 ≤ position - 0x9000
    omega
  rw [memoryWith, if_pos (by omega), List.getD_eq_default _ _ hlength]

/-- What `vmm_init` needs to know of that machine. -/
theorem poolMapped_moduleBoot (place : Byte) :
    PoolMapped BootLayout.low.pml4Table (moduleBoot place).2 ∅ (moduleBoot place).1
        (moduleBoot place).2 ∧
      PagesTaken (moduleBoot place).2.pmm 0 (moduleBoot place).2.pmm ∧
        (moduleBoot place).2.pmm.pmmTotalPages.toNat = 0x7F00 ∧
          (moduleBoot place).2.pmm.pmmBase = 0x200000#64 := by
  have hregion : RegionReady (pmmInit Pmm.bss 0x200000#64 0x7F00000#64) :=
    regionReady_pmmInit Pmm.bss (by decide) (by decide)
  have htotal : (moduleBoot place).2.pmm.pmmTotalPages.toNat = 0x7F00 :=
    toNat_totalPages_pmmInit Pmm.bss 0x200000#64 0x7F00000#64
  have hbase : (moduleBoot place).2.pmm.pmmBase = regionBase 0x200000#64 := rfl
  refine ⟨?_, ?_, htotal, hbase.trans (by decide)⟩
  · have hboot := poolMapped_boot (bssCleared_moduleBlock place) hregion
    simpa only [moduleBoot] using hboot
  · have hpages := pagesTaken_pmmInit Pmm.bss 0x200000#64 0x7F00000#64 hregion
    simpa only [moduleBoot, bootState] using hpages

/-- A module at 0x600000: the first page that `pmm_alloc` returns after `vmm_init` is that page, and
its address resolves to 0x400000. -/
theorem module_not_intact :
    InfoBlock (setupPaging BootLayout.low (memoryWith 0x9000 (moduleBlock 0x60#8))) 0x9000#64
        (moduleTags 0x600000#32 0x601000#32) ∧
      memoryRegion (setupPaging BootLayout.low (memoryWith 0x9000 (moduleBlock 0x60#8)))
          0x9000#64 = some ⟨0x200000#64, 0x7F00000#64⟩ ∧
        ∃ next supply pmm,
          vmmInit BootLayout.low.pml4Table (moduleBoot 0x60#8) = some (next, supply) ∧
            pmmAlloc supply.pmm = (0x600000#64, pmm) ∧
              vmmResolve BootLayout.low.pml4Table 0x600000#64 next = 0x400000#64 := by
  have hblock : InfoBlock (setupPaging BootLayout.low (memoryWith 0x9000 (moduleBlock 0x60#8)))
      0x9000#64 (moduleTags 0x600000#32 0x601000#32) :=
    infoBlock_moduleBlock (by decide) (by decide)
  refine ⟨hblock, memoryRegion_moduleBlock hblock, ?_⟩
  obtain ⟨hmapped, htaken, htotal, hbase⟩ := poolMapped_moduleBoot 0x60#8
  obtain ⟨next, supply, pmm, hinit, halloc, hresolve⟩ := lowRegion_resolves_elsewhere hmapped
    htaken (by rw [hbase]; decide) (by rw [htotal]; decide) (by rw [hbase, htotal]; decide)
  rw [hbase, show pageFrom 0x200000#64 1024 = 0x600000#64 from by decide] at halloc hresolve
  rw [Prod.mk.eta] at hinit
  exact ⟨next, supply, pmm, hinit, halloc, hresolve⟩

/-- A module at 0x180000 is intact, also after the first page of the allocator was taken, unmapped
and given back. -/
theorem initrdModule_run_low : ∃ s,
    (keepingSystem BootLayout.low.pml4Table (moduleBoot 0x18#8)
      (InRange (0x180000#32 : Word32).toNat (0x181000#32 : Word32).toNat)).Run
        [.alloc 0x600000#64, .unmap BootLayout.low.pml4Table 0x600000#64, .free 0x600000#64] s ∧
      ModuleIntact BootLayout.low.pml4Table (moduleBoot 0x18#8) (0x180000#32 : Word32).toNat
        (0x181000#32 : Word32).toNat s := by
  have hblock : InfoBlock (setupPaging BootLayout.low (memoryWith 0x9000 (moduleBlock 0x18#8)))
      0x9000#64 (moduleTags 0x180000#32 0x181000#32) :=
    infoBlock_moduleBlock (by decide) (by decide)
  obtain ⟨hmapped, htaken, htotal, hbase⟩ := poolMapped_moduleBoot 0x18#8
  have hclean := hmapped.toKernelMapped.cleanWindow (by rw [hbase, htotal]; decide)
  obtain ⟨next, supply, pmm, hinit, halloc, -⟩ := lowRegion_resolves_elsewhere hmapped
    htaken (by rw [hbase]; decide) (by rw [htotal]; decide) (by rw [hbase, htotal]; decide)
  rw [hbase, show pageFrom 0x200000#64 1024 = 0x600000#64 from by decide] at halloc
  rw [Prod.mk.eta] at hinit hclean
  have hstart : (keepingSystem BootLayout.low.pml4Table (moduleBoot 0x18#8)
      (InRange (0x180000#32 : Word32).toNat (0x181000#32 : Word32).toNat)).Run []
        ⟨next, supply, [], []⟩ :=
    TransitionSystem.Run.start ⟨hinit, rfl, rfl⟩
  have hapart : ∀ address, InRange (0x180000#32 : Word32).toNat (0x181000#32 : Word32).toNat
      address → virtualPage address ≠ virtualPage 0x600000#64 := by
    rintro address ⟨-, hlt⟩ hsame
    have hnumber := congrArg BitVec.toNat hsame
    rw [toNat_virtualPage, toNat_virtualPage,
      show (0x600000#64 : Word).toNat = 0x600000 from rfl] at hnumber
    have hlast : (0x181000#32 : Word32).toNat = 0x181000 := rfl
    omega
  have halloced : (keepingSystem BootLayout.low.pml4Table (moduleBoot 0x18#8)
      (InRange (0x180000#32 : Word32).toNat (0x181000#32 : Word32).toNat)).step
        ⟨next, supply, [], []⟩ (.alloc 0x600000#64)
          ⟨next, { supply with pmm := pmm }, [], [0x600000#64]⟩ :=
    ⟨⟨trivial, fun _ _ ↦ trivial⟩, SpaceStep.alloc halloc (by decide)⟩
  have hunmapped := (hstart.step halloced).step
    ⟨⟨show CleanStep _ _ (.unmap BootLayout.low.pml4Table 0x600000#64) from trivial, hapart⟩,
      SpaceStep.unmap (Or.inl rfl)⟩
  have hrun := hunmapped.step
    ⟨⟨show CleanStep _ _ (.free 0x600000#64) from trivial, fun _ _ ↦ trivial⟩,
      SpaceStep.free (List.mem_singleton_self _)⟩
  have havailable : ∀ entry ∈ mmapEntries (moduleTags 0x180000#32 0x181000#32),
      entry.Available → entry.baseAddr.toNat + entry.length.toNat ≤ 2 ^ 47 := by
    intro entry hmem _
    rw [mmapEntries_moduleTags, List.mem_singleton] at hmem
    rw [hmem]
    decide
  refine ⟨_, hrun, ?_⟩
  exact initrdModule_run (bssCleared_moduleBlock 0x18#8) hblock havailable
    (memoryRegion_moduleBlock hblock) hclean 17#32 0x180000#32 0x181000#32 _ _
    (by simp [moduleTags]) (by decide) hrun

end Colix.Boot
