import Colix.Mm.ZeroTables
import Colix.Proc.SpaceSystem

/-!
# Pages above KERNEL_BASE

`proc_create_elf` writes the new PML4 through `KERNEL_BASE + pa`. The boot page tables and
`vmm_init` map the first 2 MiB, the region of the page allocator and the heap, all at low addresses,
and nothing else in the kernel maps a page at `KERNEL_BASE` and its own address. `Unreached` says
that no address space reaches a page there, and `pml4_unreached_run` that this stays so for every
page that can be a PML4.
-/

set_option autoImplicit false
set_option relaxedAutoImplicit false

namespace Colix.Proc

open Foundation Mm

/-- No address space has one of the pages at `KERNEL_BASE` and the page's address. -/
def Unreached (roots : Word → Prop) (memory : Memory) (pages : Word → Prop) : Prop :=
  ∀ root page, roots root → pages page →
    pageMap memory root (virtualPage (kernelBase + page)) ≠ some page

/-- A page is not at its own address there. -/
theorem virtualPage_kernelBase_ne (page : Word) :
    virtualPage (kernelBase + page) ≠ virtualPage page := by
  intro heq
  have hpage := page.isLt
  have hnat := congrArg BitVec.toNat heq
  have hbase : kernelBase.toNat = 0xFFFFFFFF80000000 := rfl
  rw [toNat_virtualPage, toNat_virtualPage, BitVec.toNat_add, hbase] at hnat
  omega

section Update

variable {roots : Word → Prop} {pages pagesNext : Word → Prop} {memory next : Memory}
  {virt page : Word} {value : Option Word}

theorem Unreached.mono (hunreached : Unreached roots memory pages)
    (hsub : ∀ page, pagesNext page → pages page) : Unreached roots memory pagesNext :=
  fun root page hroot hpage ↦ hunreached root page hroot (hsub page hpage)

/-- A change of one mapping, to none of the pages there. -/
theorem Unreached.update (hunreached : Unreached roots memory pages)
    (hupdate : PagesUpdated roots virt value memory next)
    (hsub : ∀ page, pagesNext page → pages page)
    (hvalue : ∀ page, pagesNext page → virtualPage virt = virtualPage (kernelBase + page) →
      value ≠ some page) : Unreached roots next pagesNext := by
  intro root page hroot hpage
  by_cases hvirt : virtualPage virt = virtualPage (kernelBase + page)
  · rw [← hvirt]
    rcases hupdate.here root hroot with hsame | hnew
    · rw [hsame, hvirt]
      exact hunreached root page hroot (hsub page hpage)
    · rw [hnew]
      exact hvalue page hpage hvirt
  · rw [hupdate.others root hroot _ fun heq ↦ hvirt heq.symm]
    exact hunreached root page hroot (hsub page hpage)

/-- A page that is mapped at its own address is not mapped there. -/
theorem ne_of_identity (hvirt : virtualPage virt = virtualPage (kernelBase + page)) :
    some virt ≠ some page := by
  intro heq
  rw [Option.some.inj heq] at hvirt
  exact virtualPage_kernelBase_ne page hvirt.symm

end Update

/-! ### After `vmm_init` -/

/-- The tables that `vmm_init` makes come zeroed. -/
def CleanInit (kernelPml4 : Word) (state : Memory × TableSupply) : Prop :=
  (∀ i < state.2.pmm.pmmTotalPages.toNat, ∀ reached,
    mapWindow kernelPml4 i state = some reached →
      CleanPath reached.1 reached.2 kernelPml4 (pageFrom state.2.pmm.pmmBase i)) ∧
    ∀ middle, mapWindow kernelPml4 state.2.pmm.pmmTotalPages.toNat state = some middle →
      ∀ i < 1024, ∀ reached, countedLoop (bindHeapPage kernelPml4) i middle = some reached →
        CleanPath reached.1 { reached.2 with pmm := (pmmAllocPage reached.2.pmm).2 } kernelPml4
          (pageFrom kheapStart i)

section Boot

variable {kernelPml4 : Word} {memory next : Memory} {start supply : TableSupply}

/-- The boot page tables map pages at their own addresses only. -/
theorem unreached_boot {layout : BootLayout} (hbss : BssCleared layout memory)
    (pages : Word → Prop) :
    Unreached (fun root ↦ root = layout.pml4Table) (setupPaging layout memory) pages := by
  rintro root page rfl - hmap
  have hbase : kernelBase.toNat = 0xFFFFFFFF80000000 := rfl
  rw [pageMap, ← pagePath_eq_indicesOf, pagePath_eq, tableAt_snoc,
    tableAt_setupPaging layout hbss _ (le_refl 3)] at hmap
  by_cases hpath : tablePath (kernelBase + page) =
      List.replicate (tablePath (kernelBase + page)).length 0#9
  · rw [if_pos hpath, Option.bind_some] at hmap
    replace hmap : childOf (entry (setupPaging layout memory) (layout.table 3)
        (ptIdx (kernelBase + page))) = some page := hmap
    rw [childOf_entry_setupPaging_pt layout hbss, Option.some.injEq] at hmap
    -- the page is one of the first 2 MiB, whose addresses above KERNEL_BASE have no slot
    have hindex := (ptIdx (kernelBase + page)).isLt
    have hpage := congrArg BitVec.toNat hmap
    have hslot := congrArg BitVec.toNat (List.cons.inj hpath).1
    rw [BitVec.toNat_ofNat, Nat.mod_eq_of_lt (by omega)] at hpage
    rw [toNat_pml4Idx, BitVec.toNat_add, hbase, BitVec.toNat_ofNat] at hslot
    omega
  · rw [if_neg hpath] at hmap
    cases hmap

/-- What holds of the kernel's address space during `vmm_init`. -/
structure UnreachedInit (kernelPml4 : Word) (start : TableSupply) (state : Memory × TableSupply) :
    Prop where
  spaces : Spaces (fun root ↦ root = kernelPml4) state.1 state.2
  source : SameSource start state.2
  unreached : Unreached (fun root ↦ root = kernelPml4) state.1 (Available state.2)

/-- An iteration of the first loop. -/
theorem UnreachedInit.window {state after : Memory × TableSupply} {i : ℕ}
    (hstate : UnreachedInit kernelPml4 start state)
    (hi : i < start.pmm.pmmTotalPages.toNat)
    (hclean : CleanPath state.1 state.2 kernelPml4 (pageFrom start.pmm.pmmBase i))
    (hbody : mapWindowPage kernelPml4 start.pmm.pmmBase i state = some after) :
    UnreachedInit kernelPml4 start after := by
  have hregion := hstate.spaces.ready.region
  have hmod := hregion.base_mod
  have hfits := hregion.fits
  rw [hstate.source.base_eq, hstate.source.total_eq] at hfits
  rw [hstate.source.base_eq] at hmod
  have haddress : (pageFrom start.pmm.pmmBase i).toNat = start.pmm.pmmBase.toNat + i * 4096 :=
    toNat_pageFrom (by omega)
  have haligned : PageAligned (pageFrom start.pmm.pmmBase i) := by
    rw [PageAligned, haddress]
    omega
  have hmap : vmmMap allocTable kernelPml4 (pageFrom start.pmm.pmmBase i)
      (pageFrom start.pmm.pmmBase i) (ptePresent ||| pteWritable) state.1 state.2 =
        some (after.1, after.2) := hbody
  have hupdate := hstate.spaces.map rfl hclean.directories hmap
  have hpages := hstate.spaces.map_pages rfl hclean hmap
  rw [childOf_pageEntry (by decide), ptePhys_of_pageAligned haligned (by omega)] at hpages
  exact ⟨hupdate.spaces, hstate.source.trans hupdate.source,
    hstate.unreached.update hpages hupdate.available fun page _ ↦ ne_of_identity⟩

/-- An iteration of the second loop. -/
theorem UnreachedInit.heap {state after : Memory × TableSupply} {i : ℕ}
    (hstate : UnreachedInit kernelPml4 start state)
    (hclean : CleanPath state.1 { state.2 with pmm := (pmmAllocPage state.2.pmm).2 } kernelPml4
      (pageFrom kheapStart i))
    (hbody : bindHeapPage kernelPml4 i state = some after) :
    UnreachedInit kernelPml4 start after := by
  rw [bindHeapPage, pmmAllocPage] at hbody
  rw [pmmAllocPage] at hclean
  rcases hstate.spaces.ready.region.pmmAlloc_cases with ⟨hnull, -⟩ | ⟨page, pmm, halloc, hne, htook⟩
  · simp only [hnull, ↓reduceIte] at hbody
    cases hbody
  · simp only [halloc, if_neg hne] at hbody hclean
    have hsupply := htook.supply hstate.spaces.ready
    have htaken := hstate.spaces.take htook
    have hupdate := htaken.map rfl hclean.directories hbody
    have hpages := htaken.map_pages rfl hclean hbody
    have hregion := htook.free.inRegion
    have hfits := hstate.spaces.ready.region.fits
    rw [childOf_pageEntry (by decide), ptePhys_of_pageAligned
      (hstate.spaces.ready.pageAligned hsupply.available) (by omega)] at hpages
    refine ⟨hupdate.spaces, ?_, hstate.unreached.update hpages
      (fun other hother ↦ (hsupply.rest other (hupdate.available other hother)).1) ?_⟩
    · have htakenSource : SameSource state.2 { state.2 with pmm := pmm } :=
        ⟨rfl, htook.base_eq, htook.total_eq⟩
      exact (hstate.source.trans htakenSource).trans hupdate.source
    · rintro other hother - heq
      -- the page bound to the heap cannot be handed out any more
      rw [← Option.some.inj heq] at hother
      exact (hsupply.rest page (hupdate.available page hother)).2 rfl

/-- `vmm_init` maps nothing that can be handed out at `KERNEL_BASE` and its own address. -/
theorem UnreachedInit.vmmInit {state : Memory × TableSupply}
    (hstate : UnreachedInit kernelPml4 state.2 state) (hclean : CleanInit kernelPml4 state)
    {last : Memory × TableSupply} (hinit : vmmInit kernelPml4 state = some last) :
    UnreachedInit kernelPml4 state.2 last := by
  obtain ⟨hwindowClean, hheapClean⟩ := hclean
  rw [Mm.vmmInit, hstate.spaces.ready.region.pageCount_eq, pageCount_heap,
    Option.bind_eq_some_iff] at hinit
  obtain ⟨middle, hwindow, hheap⟩ := hinit
  have hmiddle : UnreachedInit kernelPml4 state.2 middle :=
    countedLoop_rule (motive := fun (_ : ℕ) reached ↦ UnreachedInit kernelPml4 state.2 reached)
      hstate (fun i hi reached after hreached hinv hbody ↦
        hinv.window hi (hwindowClean i hi reached hreached) hbody) hwindow
  exact countedLoop_rule
    (motive := fun (_ : ℕ) reached ↦ UnreachedInit kernelPml4 state.2 reached) hmiddle
    (fun i hi reached after hreached hinv hbody ↦
      hinv.heap (hheapClean middle hwindow i hi reached hreached) hbody) hheap

end Boot

/-! ### Creating a process -/

/-- The tables that the map of the user stack makes come zeroed. -/
def CleanCreatePath (kernelPml4 : Word) (memory : Memory) (supply : TableSupply) : Prop :=
  ∀ newPml4Pa middle supplyMiddle,
    createPml4 kernelPml4 memory supply = some (newPml4Pa, middle, supplyMiddle) →
      CleanPath middle { supplyMiddle with pmm := (pmmAllocPage supplyMiddle.pmm).2 }
        newPml4Pa userStackPage

section Create

variable {roots : Word → Prop} {pages : Word → Prop} {kernelPml4 userStack newPml4Pa : Word}
  {memory middle next : Memory} {supply supplyMiddle supplyMapped supplyNext : TableSupply}
  {elfPages : ElfPages} {stackPmm : Pmm}

theorem CleanCreatePath.cleanCreate (hclean : CleanCreatePath kernelPml4 memory supply) :
    CleanCreate kernelPml4 memory supply :=
  fun newPml4Pa middle supplyMiddle hcreate ↦
    (hclean newPml4Pa middle supplyMiddle hcreate).directories

/-- The new PML4 has the mappings of the kernel's. -/
theorem Pml4Created.pageMap_new
    (hcreated : Pml4Created roots kernelPml4 memory supply newPml4Pa middle supplyMiddle)
    (hkernel : roots kernelPml4) : pageMap middle newPml4Pa = pageMap memory kernelPml4 := by
  funext page
  have hslot : ∀ index, childOf (entry middle kernelPml4 index) =
      childOf (entry middle newPml4Pa index) := by
    intro index
    rw [← tableAt_singleton, hcreated.same kernelPml4 hkernel [index] (by decide : 1 ≤ 4),
      tableAt_singleton, hcreated.copied]
  have hsame := hcreated.same kernelPml4 hkernel (indicesOf page) (le_refl 4)
  rw [pageMap, pageMap, ← hsame, indicesOf, tableAt, tableAt, descend, descend, hslot]

/-- Creation keeps the pages that can be handed out or are held out of reach. -/
theorem Unreached.create (hunreached : Unreached roots memory pages)
    (hspaces : Spaces roots memory supply) (hkernel : roots kernelPml4)
    (hclean : CleanCreatePath kernelPml4 memory supply)
    (hcalls : ElfCalls kernelPml4 memory supply elfPages userStack middle supplyMiddle stackPmm next
      supplyMapped supplyNext)
    (hpages : ¬ pages userStack) :
    Unreached (fun root ↦ root = elfPages.newPml4Pa ∨ roots root) next pages := by
  have hcreated := pml4Created hspaces hkernel hcalls.pml4
  have hcleanMap := hclean _ _ _ hcalls.pml4
  rw [hcalls.allocated] at hcleanMap
  have hmiddle : Unreached (fun root ↦ root = elfPages.newPml4Pa ∨ roots root) middle pages := by
    rintro root page (rfl | hroot) hpage
    · rw [hcreated.pageMap_new hkernel]
      exact hunreached kernelPml4 page hkernel hpage
    · have hsame :=
        hcreated.same root hroot (indicesOf (virtualPage (kernelBase + page))) (le_refl 4)
      rw [pageMap, hsame]
      exact hunreached root page hroot hpage
  have hstack := hcalls.stack
  have hregion := hstack.free.inRegion
  have hfits := hcreated.spaces.ready.region.fits
  have hupdate := (hcreated.spaces.take hstack).map_pages (Or.inl rfl) hcleanMap hcalls.map
  rw [childOf_pageEntry (by decide), ptePhys_of_pageAligned
    (hcreated.spaces.ready.region.pageAligned hstack.free) (by omega)] at hupdate
  refine hmiddle.update hupdate (fun _ hpage ↦ hpage) ?_
  rintro page hpage - heq
  rw [← Option.some.inj heq] at hpage
  exact hpages hpage

end Create

/-! ### Every run -/

/-- The tables that a step makes come zeroed. -/
def CleanTablesStep (kernelPml4 : Word) (s : SpaceState) : SpaceEvent → Prop
  | .create _ => CleanCreatePath kernelPml4 s.memory s.supply
  | .map root virt _ _ => CleanPath s.memory s.supply root virt
  | _ => True

/-- A step that maps no page at `KERNEL_BASE` and the page's address. -/
def AvoidsKernelBase : SpaceEvent → Prop
  | .map _ virt phys flags => ∀ page, virtualPage virt = virtualPage (kernelBase + page) →
      childOf ((phys &&& pteAddrMask) ||| (flags ||| ptePresent)) ≠ some page
  | _ => True

/-- The runs after `vmm_init` whose tables come zeroed and that map no page at `KERNEL_BASE` and its
address. -/
def lowSystem (kernelPml4 : Word) (boot : Memory × TableSupply) :
    TransitionSystem SpaceState SpaceEvent :=
  (spaceSystem kernelPml4 (Booted kernelPml4 boot)).restrict
    fun s event ↦ CleanTablesStep kernelPml4 s event ∧ AvoidsKernelBase event

/-- What runs keep: no page that can be handed out, or may be freed, is reached there. -/
structure UnreachedInvariant (kernelPml4 : Word) (s : SpaceState) : Prop
    extends SpaceInvariant kernelPml4 s where
  unreached : Unreached (s.Root kernelPml4) s.memory
    fun page ↦ Available s.supply page ∨ page ∈ s.held

section Run

variable {kernelPml4 : Word} {s next : SpaceState} {event : SpaceEvent}

theorem CleanTablesStep.cleanStep (hclean : CleanTablesStep kernelPml4 s event) :
    CleanStep kernelPml4 s event := by
  cases event with
  | create pages => exact hclean.cleanCreate
  | map root virt phys flags => exact hclean.directories
  | alloc page => trivial
  | free page => trivial
  | unmap root virt => trivial
  | write => trivial

/-- Every step keeps them out of reach. -/
theorem UnreachedInvariant.step (hinv : UnreachedInvariant kernelPml4 s)
    (hclean : CleanTablesStep kernelPml4 s event) (havoids : AvoidsKernelBase event)
    (hstep : SpaceStep kernelPml4 s event next) : UnreachedInvariant kernelPml4 next := by
  refine ⟨hinv.toSpaceInvariant.step hclean.cleanStep hstep, ?_⟩
  cases hstep with
  | create hcreate =>
    obtain ⟨userStack, middle, supplyMiddle, stackPmm, supplyMapped, hcalls⟩ :=
      exists_elfCalls hinv.spaces (Or.inl rfl) hclean.cleanCreate hcreate
    have hcreated := hcalls.elfCreated hinv.spaces (Or.inl rfl) hclean.cleanCreate
    rw [root_append_iff]
    refine (hinv.unreached.mono fun page hpage ↦
      hpage.imp_left (hcreated.available page)).create hinv.spaces (Or.inl rfl) hclean hcalls ?_
    rintro (hpage | hheld)
    · exact hcreated.userStack_taken.held hpage
    · exact hinv.held_taken _ hheld (Or.inr hcreated.userStack_taken.free)
  | alloc halloc hne =>
    have hsupply := (took_of_pmmAllocPage hinv.spaces.ready.region halloc hne).supply
      hinv.spaces.ready
    refine hinv.unreached.mono fun page hpage ↦ ?_
    rcases hpage with hfree | hheld
    · exact Or.inl (hsupply.rest page hfree).1
    · rcases List.mem_cons.mp hheld with rfl | hold
      · exact Or.inl hsupply.available
      · exact Or.inr hold
  | free hpage =>
    obtain ⟨-, havailable⟩ := available_of_pmmFree hinv.spaces.ready (hinv.held_aligned _ hpage)
    refine hinv.unreached.mono fun page hfree ↦ ?_
    rcases hfree with hfree | hheld
    · rcases havailable page hfree with hold | rfl
      · exact Or.inl hold
      · exact Or.inr hpage
    · exact Or.inr (List.mem_of_mem_erase hheld)
  | map hroot hmap =>
    have hupdate := hinv.spaces.map hroot hclean.cleanStep hmap
    refine hinv.unreached.update (hinv.spaces.map_pages hroot hclean hmap)
      (fun page hpage ↦ hpage.imp_left (hupdate.available page)) fun page _ ↦ havoids page
  | unmap hroot =>
    exact hinv.unreached.update (hinv.spaces.unmap_pages hroot _) (fun _ hpage ↦ hpage)
      fun _ _ _ ↦ nofun
  | write hagree =>
    obtain ⟨-, hsame⟩ := hinv.toSpaceInvariant.write hagree
    intro root page hroot hpage
    have hmap := hsame root hroot (indicesOf (virtualPage (kernelBase + page))) (le_refl 4)
    rw [pageMap, hmap]
    exact hinv.unreached root page hroot hpage

/-- The runs start so. -/
theorem UnreachedInit.booted {boot : Memory × TableSupply}
    (hboot : UnreachedInit kernelPml4 boot.2 boot) (hclean : CleanInit kernelPml4 boot)
    (hbooted : Booted kernelPml4 boot s) : UnreachedInvariant kernelPml4 s := by
  obtain ⟨memory, supply, processes, held⟩ := s
  obtain ⟨hinit, hprocesses, hheld⟩ := hbooted
  obtain rfl : processes = [] := hprocesses
  obtain rfl : held = [] := hheld
  obtain ⟨hspaces, -, hunreached⟩ := hboot.vmmInit hclean hinit
  refine ⟨spaceInvariant_start hspaces, fun root page hroot hpage ↦ ?_⟩
  have hkernel : root = kernelPml4 := hroot.resolve_right (by simp)
  exact hunreached root page hkernel (hpage.resolve_right List.not_mem_nil)

/-- A page that `proc_create_elf` obtains for a PML4 is not what its address there resolves to. -/
theorem UnreachedInvariant.resolve_ne (hinv : UnreachedInvariant kernelPml4 s) {pa : Word}
    {middle : Memory} {supply : TableSupply}
    (hcreate : createPml4 kernelPml4 s.memory s.supply = some (pa, middle, supply)) :
    vmmResolve kernelPml4 (kernelBase + pa) s.memory ≠ pa := by
  have hcreated := pml4Created hinv.spaces (Or.inl rfl) hcreate
  have hnot := hinv.unreached kernelPml4 pa (Or.inl rfl) (Or.inl (Or.inr hcreated.free))
  have haligned : pa.toNat % 4096 = 0 := hinv.spaces.ready.region.pageAligned hcreated.free
  have haddress : PageAligned (kernelBase + pa) := by
    have hbase : kernelBase.toNat = 0xFFFFFFFF80000000 := rfl
    rw [PageAligned, BitVec.toNat_add, hbase]
    omega
  intro hresolve
  cases hmap : pageMap s.memory kernelPml4 (virtualPage (kernelBase + pa)) with
  | none =>
    -- what is not mapped resolves to 0, which no page of the region is
    have hregion := hcreated.free.inRegion
    have hge := hinv.spaces.ready.region.base_ge
    rw [vmmResolve_eq_resolveIn, resolveIn, hmap] at hresolve
    rw [← hresolve, BitVec.toNat_ofNat, Nat.zero_mod] at hregion
    omega
  | some page =>
    rw [vmmResolve_of_pageAligned haddress hmap] at hresolve
    rw [hresolve] at hmap
    exact hnot hmap

/-- In every run after `vmm_init` from the boot page tables, over every region for which it
completes, whose tables come zeroed and that maps no page at `KERNEL_BASE` and its own address, no
page that `proc_create_elf` obtains for a PML4 is reached at `KERNEL_BASE` and its address. -/
theorem pml4_unreached_run {layout : BootLayout} {memory : Memory} {before : Pmm}
    {memBase memSize : Word} (hbss : BssCleared layout memory)
    (hbase : 0x200000 ≤ (regionBase memBase).toNat)
    (hfits : (regionBase memBase).toNat + regionPages memSize * 4096 ≤ 2 ^ 52)
    (hclean : CleanInit layout.pml4Table (bootState layout memory before memBase memSize))
    {events : List SpaceEvent}
    (hrun : (lowSystem layout.pml4Table
      (bootState layout memory before memBase memSize)).Run events s)
    {pa : Word} {middle : Memory} {supply : TableSupply}
    (hcreate : createPml4 layout.pml4Table s.memory s.supply = some (pa, middle, supply)) :
    vmmResolve layout.pml4Table (kernelBase + pa) s.memory ≠ pa := by
  have hregion : RegionReady (pmmInit before memBase memSize) :=
    regionReady_pmmInit before hbase hfits
  have hspaces := (spaces_boot hbss hregion).1
  have hunreached := unreached_boot hbss (Available
    (bootState layout memory before memBase memSize).2)
  rw [show setupPaging layout memory = (bootState layout memory before memBase memSize).1 by
    rw [bootState]] at hunreached
  generalize bootState layout memory before memBase memSize = boot
    at hspaces hunreached hclean hrun
  have hboot : UnreachedInit layout.pml4Table boot.2 boot :=
    ⟨hspaces, SameSource.refl boot.2, hunreached⟩
  have hstart : ∀ state, Booted layout.pml4Table boot state →
      UnreachedInvariant layout.pml4Table state := fun _ ↦ hboot.booted hclean
  have hstep : ∀ state event next, UnreachedInvariant layout.pml4Table state →
      (lowSystem layout.pml4Table boot).step state event next →
        UnreachedInvariant layout.pml4Table next :=
    fun state event next hstate hstep ↦ hstate.step hstep.1.1 hstep.1.2 hstep.2
  exact (hrun.invariant hstart hstep).resolve_ne hcreate

end Run

/-! ### A region above the heap -/

/-- `vmm_init` on the pool makes its tables from zeroed pages. Assumes: the pool has tables for 61
chunks. -/
theorem cleanInit_of_pool {kernelPml4 : Word} {start : TableSupply} {memory : Memory}
    {allowed : Finset ℕ} (hsuffices : PoolSuffices start allowed) (hcard : allowed.card ≤ 61)
    (htotal : 1024 ≤ start.pmm.pmmTotalPages.toNat)
    (hmapped : PoolMapped kernelPml4 start ∅ memory start)
    (htaken : PagesTaken start.pmm 0 start.pmm) : CleanInit kernelPml4 (memory, start) := by
  have hleft : ∀ {touched : Finset ℕ} {state : Memory × TableSupply}, touched ⊆ allowed →
      PoolMapped kernelPml4 start touched state.1 state.2 →
        state.2.ptPoolUsed.toNat + 3 * 4096 ≤ 262144 := by
    intro touched state hsubset hpool
    have hle := Finset.card_le_card hsubset
    have hused := hpool.used
    omega
  constructor
  · intro i hi reached hreached
    obtain ⟨last, hlast, ⟨touched, hsubset, hpool⟩, -⟩ := hsuffices.mapWindow hmapped hi.le
    rw [hreached, Option.some.injEq] at hlast
    rw [hlast]
    exact cleanPath_of_pool _ _ hpool.spaces.ready (hleft hsubset hpool)
  · intro middle hmiddle i hi reached hreached
    obtain ⟨first, hfirst, hheap⟩ := hsuffices.window_heapTaken hmapped htaken
    rw [hmiddle, Option.some.injEq] at hfirst
    rw [← hfirst] at hheap
    obtain ⟨last, hlast, hstate⟩ := hsuffices.mapHeap htotal hheap hi.le
    rw [hreached, Option.some.injEq] at hlast
    rw [← hlast] at hstate
    obtain ⟨⟨touched, hsubset, hpool⟩, hpages, -⟩ := hstate
    obtain ⟨pmm, halloc, -, htook⟩ := hpages.pmmAlloc (by rw [hpages.total_eq]; omega)
    rw [pmmAllocPage, halloc]
    exact cleanPath_of_pool _ _ (htook.supply hpool.spaces.ready).ready (hleft hsubset hpool)

/-- On 8 MB from 8 MB on the tables of `vmm_init` come zeroed, and `proc_create_elf` obtains a page
for a PML4. -/
theorem cleanInit_largeBoot : CleanInit BootLayout.low.pml4Table largeBoot ∧
    UnreachedInit BootLayout.low.pml4Table largeBoot.2 largeBoot ∧
      ∃ s pa middle supply, Booted BootLayout.low.pml4Table largeBoot s ∧
        createPml4 BootLayout.low.pml4Table s.memory s.supply = some (pa, middle, supply) := by
  have hbss : BssCleared BootLayout.low fun _ ↦ 0#8 := fun _ _ _ ↦ rfl
  have htotal : largeBoot.2.pmm.pmmTotalPages.toNat = 2048 :=
    toNat_totalPages_pmmInit Pmm.bss 0x800000#64 0x800000#64
  have hbase : largeBoot.2.pmm.pmmBase.toNat = 0x800000 := by decide
  have hsuffices : PoolSuffices largeBoot.2 (Finset.Icc 2 7) :=
    poolSuffices_Icc (by decide) (by decide) (by rw [hbase]; decide)
      (by rw [hbase, htotal]; decide) (by decide)
  have hmapped : PoolMapped BootLayout.low.pml4Table largeBoot.2 ∅ largeBoot.1 largeBoot.2 := by
    have hboot := poolMapped_boot hbss regionReady_largeBoot
    simpa only [largeBoot] using hboot
  have htaken : PagesTaken largeBoot.2.pmm 0 largeBoot.2.pmm := by
    have hpages := pagesTaken_pmmInit Pmm.bss 0x800000#64 0x800000#64 regionReady_largeBoot
    simpa only [largeBoot, bootState] using hpages
  have hunreached : Unreached (fun root ↦ root = BootLayout.low.pml4Table) largeBoot.1
      (Available largeBoot.2) := by
    have hboot := unreached_boot hbss (Available largeBoot.2)
    rwa [show setupPaging BootLayout.low (fun _ ↦ 0#8) = largeBoot.1 by rw [largeBoot, bootState]]
      at hboot
  have hclean := cleanInit_of_pool hsuffices (by decide) (by rw [htotal]; decide) hmapped htaken
  rw [Prod.mk.eta] at hclean
  refine ⟨hclean, ⟨hmapped.spaces, SameSource.refl _, hunreached⟩, ?_⟩
  obtain ⟨memory, supply, hinit, -, hpages, -, hsupplyTotal, -⟩ := vmmInit_largeBoot
  obtain ⟨pmm, halloc, -, htook⟩ := hpages.pmmAlloc
    (show 1024 < supply.pmm.pmmTotalPages.toNat by omega)
  have hne : pageFrom supply.pmm.pmmBase 1024 ≠ 0#64 := by
    intro hnull
    have hregion := htook.free.inRegion
    have hge := hpages.ready.base_ge
    rw [hnull, BitVec.toNat_ofNat, Nat.zero_mod] at hregion
    omega
  have hcreate : ∃ pa middle supplyNext,
      createPml4 BootLayout.low.pml4Table memory supply = some (pa, middle, supplyNext) := by
    simp only [createPml4, pmmAllocPage, halloc, if_neg hne]
    exact ⟨_, _, _, rfl⟩
  obtain ⟨pa, middle, supplyNext, hpml4⟩ := hcreate
  exact ⟨⟨memory, supply, [], []⟩, pa, middle, supplyNext, ⟨hinit, rfl, rfl⟩, hpml4⟩

/-- So it is on 8 MB from 8 MB on, after a page was taken and mapped at 1 GB: the PML4 is the page
behind it. -/
theorem pml4_unreached_run_mapped : ∃ s middle supply,
    (lowSystem BootLayout.low.pml4Table largeBoot).Run
        [.alloc 0xC00000#64, .map BootLayout.low.pml4Table 0x40000000#64 0xC00000#64 3#64] s ∧
      createPml4 BootLayout.low.pml4Table s.memory s.supply = some (0xC01000#64, middle, supply) ∧
        vmmResolve BootLayout.low.pml4Table (kernelBase + 0xC01000#64) s.memory ≠ 0xC01000#64 := by
  have hbss : BssCleared BootLayout.low fun _ ↦ 0#8 := fun _ _ _ ↦ rfl
  obtain ⟨hclean, -⟩ := cleanInit_largeBoot
  obtain ⟨memory, supply, first, second, next, supplyNext, hinit, halloc, hsecond, hsupply, hused,
    hmap, rfl⟩ := largeBoot_maps
  have hcleanMap : CleanPath memory { supply with pmm := supplyNext.pmm } BootLayout.low.pml4Table
      0x40000000#64 :=
    cleanPath_of_pool _ _ hsupply (show supply.ptPoolUsed.toNat + 3 * 4096 ≤ 262144 by omega)
  have havoids : AvoidsKernelBase
      (.map BootLayout.low.pml4Table 0x40000000#64 0xC00000#64 3#64) := by
    rintro page hsame heq
    obtain rfl : 0xC00000#64 = page := Option.some.inj ((by decide : _ = _).trans heq)
    exact absurd hsame (by decide)
  have hstart : (lowSystem BootLayout.low.pml4Table largeBoot).Run []
      ⟨memory, supply, [], []⟩ := TransitionSystem.Run.start ⟨hinit, rfl, rfl⟩
  have halloced : (lowSystem BootLayout.low.pml4Table largeBoot).step ⟨memory, supply, [], []⟩
      (.alloc 0xC00000#64) ⟨memory, { supply with pmm := supplyNext.pmm }, [], [0xC00000#64]⟩ :=
    ⟨⟨trivial, trivial⟩, SpaceStep.alloc halloc (by decide)⟩
  have hrun : (lowSystem BootLayout.low.pml4Table largeBoot).Run
      [.alloc 0xC00000#64, .map BootLayout.low.pml4Table 0x40000000#64 0xC00000#64 3#64]
        ⟨next, supplyNext, [], [0xC00000#64]⟩ :=
    (hstart.step halloced).step ⟨⟨hcleanMap, havoids⟩, SpaceStep.map (Or.inl rfl) hmap⟩
  have hcreate : ∃ middle supplyLast, createPml4 BootLayout.low.pml4Table next supplyNext =
      some (0xC01000#64, middle, supplyLast) := by
    simp only [createPml4, pmmAllocPage, hsecond]
    exact ⟨_, _, if_neg (by decide)⟩
  obtain ⟨middle, supplyLast, hcreate⟩ := hcreate
  refine ⟨_, middle, supplyLast, hrun, hcreate, ?_⟩
  rw [largeBoot] at hclean hrun
  exact pml4_unreached_run hbss (by decide) (by decide) hclean hrun hcreate

/-- The first PML4 after `vmm_init` is not reached where `proc_create_elf` writes it. -/
theorem pml4_not_reached : ∃ s pa middle supply,
    Booted BootLayout.low.pml4Table largeBoot s ∧
      createPml4 BootLayout.low.pml4Table s.memory s.supply = some (pa, middle, supply) ∧
        vmmResolve BootLayout.low.pml4Table (kernelBase + pa) s.memory ≠ pa := by
  obtain ⟨hclean, hboot, s, pa, middle, supply, hbooted, hcreate⟩ := cleanInit_largeBoot
  exact ⟨s, pa, middle, supply, hbooted, hcreate, (hboot.booted hclean hbooted).resolve_ne hcreate⟩

end Colix.Proc
