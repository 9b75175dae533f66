import Colix.Proc.SpaceSystem

/-!
# Isolation of the processes

`proc_create_elf` copies the kernel's whole PML4, its lower half included, so two processes have the
same tables in every slot that the kernel's PML4 had when they were created. `isolated_iff` says
what follows, in every state after `vmm_init`: mapping and unmapping an address in one process
leaves the others and the kernel alone exactly when it shares the slot of the address with neither.

Slot 0 is the kernel's from boot, so the addresses below 512 GiB are shared by all processes:
`lowAddress_not_isolated` maps a page in one process and resolves it in another.
-/

set_option autoImplicit false
set_option relaxedAutoImplicit false

namespace Colix.Proc

open Foundation Mm

/-! ### Statements -/

/-- All resolves of an address space stay. -/
def SeesNoChange (root : Word) (memory next : Memory) : Prop :=
  ∀ virt, vmmResolve root virt next = vmmResolve root virt memory

/-- Mapping and unmapping an address in one address space is not seen from the others given. -/
def IsolatedFrom (s : SpaceState) (root virt : Word) (others : List Word) : Prop :=
  (∀ phys flags next supplyNext,
      vmmMap allocTable root virt phys flags s.memory s.supply = some (next, supplyNext) →
        ∀ other ∈ others, SeesNoChange other s.memory next) ∧
    ∀ other ∈ others, SeesNoChange other s.memory (vmmUnmap root virt s.memory)

/-- The two processes share the slot of the address neither with each other nor with the kernel. -/
def SlotOwn (kernelPml4 : Word) (s : SpaceState) (p q : ElfPages) (virt : Word) : Prop :=
  ¬ SharesSlot s.memory p.newPml4Pa q.newPml4Pa (pml4Idx virt) ∧
    ¬ SharesSlot s.memory p.newPml4Pa kernelPml4 (pml4Idx virt)

/-- Mapping and unmapping the address in one process is not seen from the other and from the kernel
exactly when the slot is its own. -/
structure IsolationExact (kernelPml4 : Word) (s : SpaceState) (p q : ElfPages) (virt : Word) :
    Prop where
  /-- The slots of a process that the kernel's PML4 does not have are its own. -/
  own_of_kernel : tableAt s.memory kernelPml4 [pml4Idx virt] = none → SlotOwn kernelPml4 s p q virt
  isolated : SlotOwn kernelPml4 s p q virt →
    IsolatedFrom s p.newPml4Pa virt [q.newPml4Pa, kernelPml4]
  /-- When a map of a page returns, only then. -/
  own_of_isolated : ∀ phys flags next supplyNext, flags &&& pteAddrMask = 0#64 →
    vmmMap allocTable p.newPml4Pa virt phys flags s.memory s.supply = some (next, supplyNext) →
      IsolatedFrom s p.newPml4Pa virt [q.newPml4Pa, kernelPml4] → SlotOwn kernelPml4 s p q virt

/-! ### One state -/

section State

variable {kernelPml4 root other virt phys flags : Word} {s : SpaceState} {roots : Word → Prop}
  {memory next : Memory} {supply supplyNext : TableSupply} {others : List Word}

/-- An address space that does not share the slot sees no change. -/
theorem seesNoChange_of_update {value : Option Word}
    (hupdate : SpaceUpdate roots root virt value memory supply next supplyNext)
    (hother : roots other) (hne : other ≠ root)
    (hslot : ¬ SharesSlot memory root other (pml4Idx virt)) : SeesNoChange other memory next := by
  intro address
  rw [vmmResolve_eq_resolveIn, vmmResolve_eq_resolveIn, hupdate.isolated other hother hne hslot]

/-- An address space that shares the slot sees the mapping. -/
theorem pageMap_of_shared {value : Option Word} (hroot : roots root)
    (hupdate : SpaceUpdate roots root virt value memory supply next supplyNext)
    (hother : roots other) (hslot : SharesSlot memory root other (pml4Idx virt)) :
    pageMap next other (virtualPage virt) = value := by
  have hnext : Foundation.Shared childOf (entry next) root other (pagePath virt) := by
    obtain ⟨table, htable, htableOther⟩ := hslot
    rw [← tableAt_singleton] at htable htableOther
    refine ⟨table, ?_, ?_⟩
    · rw [← tableAt_singleton]
      exact hupdate.keptTables root hroot _ (by simp) table htable
    · rw [← tableAt_singleton]
      exact hupdate.keptTables other hother _ (by simp) table htableOther
  have hself := hupdate.self
  rw [pageMap, ← pagePath_eq_indicesOf] at hself ⊢
  rw [← hself]
  exact (descend_shared hnext).symm

/-- Whether `vmm_map` returns does not depend on the page that is mapped. -/
theorem vmmMap_returns (other : Word)
    (hmap : vmmMap allocTable root virt phys flags memory supply = some (next, supplyNext)) :
    ∃ otherNext, vmmMap allocTable root virt other flags memory supply =
      some (otherNext, supplyNext) := by
  rw [vmmMap] at hmap ⊢
  cases hpdp : nextTable allocTable root (pml4Idx virt) flags memory supply with
  | none => simp [hpdp] at hmap
  | some pdp =>
    obtain ⟨pdp, memoryPdp, supplyPdp⟩ := pdp
    simp only [hpdp] at hmap ⊢
    cases hpd : nextTable allocTable pdp (pdpIdx virt) flags memoryPdp supplyPdp with
    | none => simp [hpd] at hmap
    | some pd =>
      obtain ⟨pd, memoryPd, supplyPd⟩ := pd
      simp only [hpd] at hmap ⊢
      cases hpt : nextTable allocTable pd (pdIdx virt) flags memoryPd supplyPd with
      | none => simp [hpt] at hmap
      | some pt =>
        obtain ⟨pt, memoryPt, supplyPt⟩ := pt
        simp only [hpt, Option.some.injEq, Prod.mk.injEq] at hmap ⊢
        exact ⟨_, rfl, hmap.2⟩

/-- What an address resolves to once its page is known. -/
theorem vmmResolve_of_pageMap {page : Word}
    (hpage : pageMap memory root (virtualPage virt) = some page) :
    vmmResolve root virt memory = page ||| (virt &&& 0xFFF#64) := by
  rw [vmmResolve_eq_resolveIn, resolveIn, hpage]

/-- An address space that shares the slot sees that a page was mapped. Assumes: the flags have no
address bits, and the directories come zeroed. -/
theorem vmmResolve_of_shared {page : Word} (hspaces : Spaces roots memory supply)
    (hroot : roots root) (hother : roots other)
    (hslot : SharesSlot memory root other (pml4Idx virt))
    (hclean : CleanDirectories memory supply root virt) (hflags : flags &&& pteAddrMask = 0#64)
    (haligned : PageAligned page) (hbound : page.toNat < 2 ^ 52)
    (hmap : vmmMap allocTable root virt page flags memory supply = some (next, supplyNext)) :
    vmmResolve other virt next = page ||| (virt &&& 0xFFF#64) := by
  have hupdate := hspaces.map hroot hclean hmap
  rw [childOf_pageEntry hflags, ptePhys_of_pageAligned haligned hbound] at hupdate
  exact vmmResolve_of_pageMap (pageMap_of_shared hroot hupdate hother hslot)

/-- An address space that shares the slot sees one of two pages mapped. -/
theorem not_shared_of_isolated (hspaces : Spaces roots s.memory s.supply) (hroot : roots root)
    (hother : roots other) (hclean : CleanDirectories s.memory s.supply root virt)
    (hflags : flags &&& pteAddrMask = 0#64)
    (hmap : vmmMap allocTable root virt phys flags s.memory s.supply = some (next, supplyNext))
    (hisolated : IsolatedFrom s root virt others) (hmem : other ∈ others) :
    ¬ SharesSlot s.memory root other (pml4Idx virt) := by
  intro hslot
  obtain ⟨first, hfirst⟩ := vmmMap_returns 0x1000#64 hmap
  obtain ⟨second, hsecond⟩ := vmmMap_returns 0x2000#64 hmap
  have hseen := (hisolated.1 _ _ _ _ hfirst other hmem virt).trans
    (hisolated.1 _ _ _ _ hsecond other hmem virt).symm
  have hfirstPage : PageAligned 0x1000#64 := rfl
  have hsecondPage : PageAligned 0x2000#64 := rfl
  rw [vmmResolve_of_shared hspaces hroot hother hslot hclean hflags hfirstPage (by decide) hfirst,
    vmmResolve_of_shared hspaces hroot hother hslot hclean hflags hsecondPage (by decide) hsecond]
    at hseen
  have hbit := congrArg (fun word : Word ↦ word.getLsbD 12) hseen
  simp at hbit

end State

/-! ### Every run -/

section Run

variable {kernelPml4 virt : Word} {boot : Memory × TableSupply} {s : SpaceState}
  {events : List SpaceEvent} {p q : ElfPages} {i j : ℕ}

/-- After `vmm_init` the address spaces are kept apart in every run whose directories come
zeroed. -/
theorem spaceInvariant_of_run (hspaces : Spaces (fun root ↦ root = kernelPml4) boot.1 boot.2)
    {pd : Word} (hpd : tableAt boot.1 kernelPml4 [0#9, 0#9] = some pd)
    (hclean : CleanWindow kernelPml4 boot)
    (hrun : ((spaceSystem kernelPml4 (Booted kernelPml4 boot)).restrict
      (CleanStep kernelPml4)).Run events s) : SpaceInvariant kernelPml4 s := by
  refine hrun.invariant ?_ fun state event next hstate hstep ↦ hstate.step hstep.1 hstep.2
  rintro ⟨memory, supply, processes, held⟩ ⟨hinit, rfl, rfl⟩
  exact spaceInvariant_start (spaces_vmmInit hspaces hpd hclean hinit).1

/-- Two processes have two PML4s. -/
theorem SpaceInvariant.newPml4Pa_ne (hinv : SpaceInvariant kernelPml4 s)
    (hp : s.processes[i]? = some p) (hq : s.processes[j]? = some q) (hne : i ≠ j) :
    p.newPml4Pa ≠ q.newPml4Pa := by
  have hnodup := (List.nodup_cons.mp hinv.roots_nodup).2
  intro heq
  have hpMap : (s.processes.map ElfPages.newPml4Pa)[i]? = some p.newPml4Pa := by
    rw [List.getElem?_map, hp, Option.map_some]
  have hqMap : (s.processes.map ElfPages.newPml4Pa)[j]? = some p.newPml4Pa := by
    rw [List.getElem?_map, hq, Option.map_some, heq]
  obtain ⟨hlt, -⟩ := List.getElem?_eq_some_iff.mp hpMap
  exact hne ((List.getElem?_inj hlt hnodup).mp (hpMap.trans hqMap.symm))

/-- The invariant says when the processes are isolated. Assumes: directories come zeroed. -/
theorem SpaceInvariant.isolationExact (hinv : SpaceInvariant kernelPml4 s)
    (hp : s.processes[i]? = some p) (hq : s.processes[j]? = some q) (hij : i ≠ j)
    (hclean : CleanDirectories s.memory s.supply p.newPml4Pa virt) :
    IsolationExact kernelPml4 s p q virt := by
  have hpRoot : s.Root kernelPml4 p.newPml4Pa := Or.inr ⟨p, List.mem_of_getElem? hp, rfl⟩
  have hqRoot : s.Root kernelPml4 q.newPml4Pa := Or.inr ⟨q, List.mem_of_getElem? hq, rfl⟩
  have hkernelRoot : s.Root kernelPml4 kernelPml4 := Or.inl rfl
  have hqNe := hinv.newPml4Pa_ne hp hq hij
  have hkernelNe : kernelPml4 ≠ p.newPml4Pa := by
    intro heq
    refine (List.nodup_cons.mp hinv.roots_nodup).1 ?_
    rw [heq]
    exact List.mem_map_of_mem (List.mem_of_getElem? hp)
  refine ⟨fun hnone ↦ ?_, ?_, ?_⟩
  · have hnot : ∀ other, s.Root kernelPml4 other → p.newPml4Pa ≠ other →
        ¬ SharesSlot s.memory p.newPml4Pa other (pml4Idx virt) := by
      intro other hother hne hshares
      obtain ⟨table, htable⟩ := hinv.shares p.newPml4Pa other _ hpRoot hother hne hshares
      rw [hnone] at htable
      cases htable
    exact ⟨hnot _ hqRoot hqNe, hnot _ hkernelRoot hkernelNe.symm⟩
  · rintro ⟨hq, hkernel⟩
    have hall : ∀ {value : Option Word} {next : Memory} {supplyNext : TableSupply},
        SpaceUpdate (s.Root kernelPml4) p.newPml4Pa virt value s.memory s.supply next supplyNext →
          ∀ other ∈ [q.newPml4Pa, kernelPml4], SeesNoChange other s.memory next := by
      intro value next supplyNext hupdate
      rw [List.forall_mem_cons, List.forall_mem_singleton]
      exact ⟨seesNoChange_of_update hupdate hqRoot hqNe.symm hq,
        seesNoChange_of_update hupdate hkernelRoot hkernelNe hkernel⟩
    exact ⟨fun phys flags next supplyNext hmap ↦ hall (hinv.spaces.map hpRoot hclean hmap),
      hall (hinv.spaces.unmap hpRoot virt)⟩
  · intro phys flags next supplyNext hflags hmap hisolated
    have hnot := fun other (hother : s.Root kernelPml4 other) ↦
      not_shared_of_isolated hinv.spaces hpRoot hother hclean hflags hmap hisolated
    exact ⟨hnot _ hqRoot (by simp), hnot _ hkernelRoot (by simp)⟩

/-- In every run after `vmm_init` from the boot page tables whose directories come zeroed, two
processes are isolated at an address exactly when its slot is their own; the slots that the kernel's
PML4 does not have are. -/
theorem isolation_run_exact {layout : BootLayout} {memory : Memory} {before : Pmm}
    {memBase memSize : Word} (hbss : BssCleared layout memory)
    (hbase : 0x200000 ≤ (regionBase memBase).toNat)
    (hfits : (regionBase memBase).toNat + regionPages memSize * 4096 ≤ 2 ^ 52)
    (hcleanBoot : CleanWindow layout.pml4Table (bootState layout memory before memBase memSize))
    (hrun : ((spaceSystem layout.pml4Table (Booted layout.pml4Table
      (bootState layout memory before memBase memSize))).restrict
        (CleanStep layout.pml4Table)).Run events s)
    (hp : s.processes[i]? = some p) (hq : s.processes[j]? = some q) (hij : i ≠ j)
    (hclean : CleanDirectories s.memory s.supply p.newPml4Pa virt) :
    IsolationExact layout.pml4Table s p q virt := by
  obtain ⟨hspaces, hpd⟩ := spaces_boot hbss (regionReady_pmmInit before hbase hfits)
  exact (spaceInvariant_of_run hspaces hpd hcleanBoot hrun).isolationExact hp hq hij hclean

end Run

/-! ### Two processes after `vmm_init` -/

/-- Two processes created after `vmm_init`, with what they have in common: slot 0, by which the
second has the page at 0x1000, and pages left in the pool. -/
structure TwoProcesses (s : SpaceState) (p q : ElfPages) : Prop where
  run : ∃ events, ((spaceSystem BootLayout.low.pml4Table
    (Booted BootLayout.low.pml4Table largeBoot)).restrict
      (CleanStep BootLayout.low.pml4Table)).Run events s
  processes : s.processes = [p, q]
  shares : SharesSlot s.memory p.newPml4Pa q.newPml4Pa 0#9
  page : pageMap s.memory q.newPml4Pa (virtualPage 0x1000#64) = some 0x1000#64
  pool : s.supply.ptPoolUsed.toNat ≤ 12 * 4096
  invariant : SpaceInvariant BootLayout.low.pml4Table s

/-- Slot 0 of the kernel's PML4 is the new process's and stays that of the others. -/
theorem slot_of_created {s next : SpaceState} {pages : ElfPages} {kernelPml4 userStack table : Word}
    (hcreated : ElfCreated (s.Root kernelPml4) kernelPml4 s.memory s.supply pages userStack
      next.memory next.supply)
    (hslot : tableAt s.memory kernelPml4 [0#9] = some table) :
    tableAt next.memory pages.newPml4Pa [0#9] = some table ∧
      ∀ root, s.Root kernelPml4 root →
        tableAt next.memory root [0#9] = tableAt s.memory root [0#9] :=
  ⟨hcreated.copied 0#9 table hslot, fun root hroot ↦ hcreated.slot root hroot 0#9⟩

theorem exists_twoProcesses : ∃ s p q, TwoProcesses s p q := by
  obtain ⟨memory, supply, hinit, hready, htaken, hused, htotal, -⟩ := vmmInit_largeBoot
  have hkernelPage := hready.low 0x1000#64 rfl (by decide)
  obtain ⟨table, hslot⟩ := exists_slot_of_pageMap hkernelPage
  rw [show pml4Idx 0x1000#64 = 0#9 from by decide] at hslot
  obtain ⟨p, middle, hp⟩ := exists_create (s := ⟨memory, supply, [], []⟩)
    (spaceInvariant_start hready.spaces) htaken
    (show 1024 + 3 ≤ supply.pmm.pmmTotalPages.toNat by omega)
    (show supply.ptPoolUsed.toNat + 3 * 4096 ≤ 262144 by omega)
  have hmiddleTotal : middle.supply.pmm.pmmTotalPages.toNat = 2048 := by
    rw [hp.total_eq, htotal]
  have hmiddleUsed : middle.supply.ptPoolUsed.toNat ≤ supply.ptPoolUsed.toNat + 3 * 4096 :=
    hp.used_le
  obtain ⟨q, s, hq⟩ := exists_create hp.invariant hp.taken (by omega) (by omega)
  have hsUsed := hq.used_le
  obtain ⟨firstStack, hfirst⟩ := hp.created
  obtain ⟨secondStack, hsecond⟩ := hq.created
  obtain ⟨hpSlot, hkept⟩ := slot_of_created hfirst hslot
  have hkernelSlot := (hkept BootLayout.low.pml4Table (Or.inl rfl)).trans hslot
  obtain ⟨hqSlot, hkeptLast⟩ := slot_of_created hsecond hkernelSlot
  have hpRoot : middle.Root BootLayout.low.pml4Table p.newPml4Pa :=
    Or.inr ⟨p, by rw [hp.processes]; simp, rfl⟩
  have hpLast := (hkeptLast p.newPml4Pa hpRoot).trans hpSlot
  have hkernelLast := (hkeptLast BootLayout.low.pml4Table (Or.inl rfl)).trans hkernelSlot
  have hpage : pageMap s.memory BootLayout.low.pml4Table (virtualPage 0x1000#64) =
      some 0x1000#64 := by
    refine hsecond.kept _ (Or.inl rfl) _ (by decide) _ ?_
    exact hfirst.kept _ (Or.inl rfl) _ (by decide) _ hkernelPage
  have hstart : ((spaceSystem BootLayout.low.pml4Table
      (Booted BootLayout.low.pml4Table largeBoot)).restrict
        (CleanStep BootLayout.low.pml4Table)).Run [] ⟨memory, supply, [], []⟩ :=
    TransitionSystem.Run.start ⟨hinit, rfl, rfl⟩
  refine ⟨s, p, q, ⟨_, (hstart.step ⟨hp.clean, hp.step⟩).step ⟨hq.clean, hq.step⟩⟩, ?_, ?_, ?_,
    by omega, hq.invariant⟩
  · rw [hq.processes, hp.processes]
    rfl
  · rw [tableAt_singleton] at hpLast hqSlot
    exact ⟨table, hpLast, hqSlot⟩
  · have hshared : Foundation.Shared childOf (entry s.memory) q.newPml4Pa
        BootLayout.low.pml4Table (indicesOf (virtualPage 0x1000#64)) := by
      rw [tableAt_singleton] at hkernelLast hqSlot
      exact ⟨table, hqSlot, hkernelLast⟩
    rw [← hpage]
    exact descend_shared hshared

/-- The address 0x1000 is not isolated: a page mapped there in the first process is what it resolves
to in the second. -/
theorem lowAddress_not_isolated : ∃ s p q,
    (∃ events, ((spaceSystem BootLayout.low.pml4Table
      (Booted BootLayout.low.pml4Table largeBoot)).restrict
        (CleanStep BootLayout.low.pml4Table)).Run events s) ∧
      s.processes = [p, q] ∧ vmmResolve q.newPml4Pa 0x1000#64 s.memory = 0x1000#64 ∧
        ∃ next supply, vmmMap allocTable p.newPml4Pa 0x1000#64 0x5000#64 0x7#64 s.memory s.supply =
          some (next, supply) ∧ vmmResolve q.newPml4Pa 0x1000#64 next = 0x5000#64 := by
  obtain ⟨s, p, q, htwo⟩ := exists_twoProcesses
  have hready := htwo.invariant.spaces.ready
  have hpool := htwo.pool
  have hpRoot : s.Root BootLayout.low.pml4Table p.newPml4Pa :=
    Or.inr ⟨p, by rw [htwo.processes]; simp, rfl⟩
  have hqRoot : s.Root BootLayout.low.pml4Table q.newPml4Pa :=
    Or.inr ⟨q, by rw [htwo.processes]; simp, rfl⟩
  obtain ⟨next, supply, hmap, -⟩ :=
    vmmMap_pool p.newPml4Pa 0x1000#64 0x5000#64 0x7#64 s.memory hready
    (by omega)
  have hslot : SharesSlot s.memory p.newPml4Pa q.newPml4Pa (pml4Idx 0x1000#64) := htwo.shares
  have hclean : CleanDirectories s.memory s.supply p.newPml4Pa 0x1000#64 :=
    cleanDirectories_of_pool _ _ hready (by omega)
  have hpage : PageAligned 0x5000#64 := rfl
  have hseen := vmmResolve_of_shared htwo.invariant.spaces hpRoot hqRoot hslot hclean (by decide)
    hpage (by decide) hmap
  refine ⟨s, p, q, htwo.run, htwo.processes, ?_, next, supply, hmap, ?_⟩
  · rw [vmmResolve_of_pageMap htwo.page]
    decide
  · rw [hseen]
    decide

/-- The two processes at the first address above the kernel's slot. -/
theorem isolation_run_exact_slot : ∃ s p q, s.processes = [p, q] ∧
    IsolationExact BootLayout.low.pml4Table s p q 0x8000000000#64 := by
  obtain ⟨s, p, q, htwo⟩ := exists_twoProcesses
  obtain ⟨-, -, -, -, -, -, -, hclean⟩ := vmmInit_largeBoot
  have hready := htwo.invariant.spaces.ready
  have hpool := htwo.pool
  obtain ⟨events, hrun⟩ := htwo.run
  have hbss : BssCleared BootLayout.low fun _ ↦ 0#8 := fun _ _ _ ↦ rfl
  refine ⟨s, p, q, htwo.processes, ?_⟩
  rw [largeBoot] at hrun hclean
  refine isolation_run_exact hbss (by decide) (by decide) hclean hrun (i := 0) (j := 1) ?_ ?_
    (by decide) (cleanDirectories_of_pool _ _ hready (by omega))
  · rw [htwo.processes]
    rfl
  · rw [htwo.processes]
    rfl

end Colix.Proc
