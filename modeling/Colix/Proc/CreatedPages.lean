import Colix.Proc.SpaceSystem

/-!
# The pages of the processes

The three pages of a process that `proc_create_elf` returned: its PML4, the page its user stack is
mapped to, and its kernel stack. `CreatedPages` is what runs of creations keep, with other callers
of the page allocator in between: the pages of all processes are distinct pages that were free at
the start and cannot be handed out again.

The user stack is not shared because the kernel's PML4 has no entry for its slot, and it is never
page 0: a call whose `pmm_alloc_page` for the user stack returned NULL does not return.
-/

set_option autoImplicit false
set_option relaxedAutoImplicit false

namespace Colix.Proc

open Foundation Mm

/-- The PML4, the page of the user stack, and the kernel stack of a process. -/
def processPages (memory : Memory) (pages : ElfPages) : List Word :=
  [pages.newPml4Pa, vmmResolve pages.newPml4Pa userStackPage memory, pages.kernelStack]

/-- The pages of all processes. -/
def SpaceState.pages (s : SpaceState) : List Word :=
  s.processes.flatMap (processPages s.memory)

/-- Creations, and other callers of `pmm_alloc`, with no frees. -/
def Creation : SpaceEvent → Prop
  | .create _ | .alloc _ | .write => True
  | _ => False

theorem creation_create (pages : ElfPages) : Creation (.create pages) := trivial

/-- The runs of creations with zeroed tables, from a state with the kernel's address space alone. -/
def creationSystem (kernelPml4 : Word) (memory : Memory) (supply : TableSupply) :
    TransitionSystem SpaceState SpaceEvent :=
  (spaceSystem kernelPml4 (fun s ↦ s = ⟨memory, supply, [], []⟩)).restrict
    fun s event ↦ Creation event ∧ CleanStep kernelPml4 s event

/-! ### The invariant -/

/-- What runs of creations keep. -/
structure CreatedPages (kernelPml4 : Word) (start : TableSupply) (s : SpaceState) : Prop
    extends SpaceInvariant kernelPml4 s where
  stackSlot : tableAt s.memory kernelPml4 [pml4Idx userStackPage] = none
  available : ∀ page, Available s.supply page → Available start page
  nodup : s.pages.Nodup
  taken : ∀ page ∈ s.pages, FreePage start.pmm page ∧ ¬ Available s.supply page

/-- What a step of creation keeps of the processes that are there. -/
def StacksKept (s next : SpaceState) : Prop :=
  ∀ pages ∈ s.processes, pages ∈ next.processes ∧
    vmmResolve pages.newPml4Pa userStackPage next.memory =
      vmmResolve pages.newPml4Pa userStackPage s.memory

section Creation

variable {kernelPml4 : Word} {start supply : TableSupply} {s next : SpaceState} {event : SpaceEvent}
  {memory : Memory} {pages : ElfPages}

/-- The resolves of an address space that keeps its mappings. -/
theorem vmmResolve_congr {first second : Memory} {root : Word}
    (hsame : pageMap first root = pageMap second root) (virt : Word) :
    vmmResolve root virt first = vmmResolve root virt second := by
  rw [vmmResolve_eq_resolveIn, vmmResolve_eq_resolveIn, hsame]

/-- The pages of the processes depend on the mappings of their user stacks. -/
theorem flatMap_processPages_congr {first second : Memory} {processes : List ElfPages}
    (hsame : ∀ pages ∈ processes, vmmResolve pages.newPml4Pa userStackPage first =
      vmmResolve pages.newPml4Pa userStackPage second) :
    processes.flatMap (processPages first) = processes.flatMap (processPages second) := by
  refine List.flatMap_congr fun pages hpages ↦ ?_
  rw [processPages, processPages, hsame pages hpages]

/-- The user stack of a new process. -/
theorem processPages_created {roots : Word → Prop} {userStack : Word}
    (hcreated : ElfCreated roots kernelPml4 s.memory s.supply pages userStack memory supply) :
    processPages memory pages = [pages.newPml4Pa, userStack, pages.kernelStack] := by
  have hstack : vmmResolve pages.newPml4Pa userStackPage memory = userStack := by
    rw [vmmResolve_eq_resolveIn, resolveIn, hcreated.stack]
    exact BitVec.or_zero
  rw [processPages, hstack]

/-- Creating a process adds three pages of its own. -/
theorem CreatedPages.create (hpages : CreatedPages kernelPml4 start s) (hstart : SupplyReady start)
    {userStack : Word}
    (hcreated : ElfCreated (s.Root kernelPml4) kernelPml4 s.memory s.supply pages userStack memory
      supply) :
    CreatedPages kernelPml4 start
        { s with memory := memory, supply := supply, processes := s.processes ++ [pages] } ∧
      StacksKept s
        { s with memory := memory, supply := supply, processes := s.processes ++ [pages] } := by
  have hstacks : ∀ other ∈ s.processes, vmmResolve other.newPml4Pa userStackPage memory =
      vmmResolve other.newPml4Pa userStackPage s.memory := fun other hother ↦
    vmmResolve_congr (hcreated.isolated hpages.stackSlot other.newPml4Pa
      (Or.inr ⟨other, hother, rfl⟩)) userStackPage
  have hall : SpaceState.pages
      { s with memory := memory, supply := supply, processes := s.processes ++ [pages] } =
        s.pages ++ [pages.newPml4Pa, userStack, pages.kernelStack] := by
    rw [SpaceState.pages, List.flatMap_append, flatMap_processPages_congr hstacks,
      List.flatMap_singleton, processPages_created hcreated, SpaceState.pages]
  have hnew : ∀ page ∈ [pages.newPml4Pa, userStack, pages.kernelStack],
      Taken s.supply page supply := by
    simp only [List.mem_cons, List.not_mem_nil, or_false]
    rintro page (rfl | rfl | rfl)
    · exact hcreated.pml4_taken
    · exact hcreated.userStack_taken
    · exact hcreated.kernelStack_taken
  refine ⟨⟨hpages.toSpaceInvariant.create hcreated, ?_, ?_, ?_, ?_⟩, fun other hother ↦
    ⟨List.mem_append_left [pages] hother, hstacks other hother⟩⟩
  · show tableAt memory kernelPml4 [pml4Idx userStackPage] = none
    rw [hcreated.slot kernelPml4 (Or.inl rfl), hpages.stackSlot]
  · exact fun page hpage ↦ hpages.available page (hcreated.available page hpage)
  · rw [hall]
    refine List.Nodup.append hpages.nodup hcreated.distinct fun page hold hpage ↦ ?_
    exact (hpages.taken page hold).2 (Or.inr (hnew page hpage).free)
  · rw [hall]
    intro page hpage
    rcases List.mem_append.mp hpage with hold | hpage
    · obtain ⟨hfree, htaken⟩ := hpages.taken page hold
      exact ⟨hfree, fun havailable ↦ htaken (hcreated.available page havailable)⟩
    · have hregion := (hnew page hpage).free.inRegion
      have hbase := hpages.spaces.ready.region.base_ge
      exact ⟨free_of_available hstart (hpages.available page (Or.inr (hnew page hpage).free))
        (by omega), (hnew page hpage).held⟩

/-- A step of creation keeps the pages of the processes apart, and the user stacks of those that are
there. -/
theorem CreatedPages.step (hpages : CreatedPages kernelPml4 start s) (hstart : SupplyReady start)
    (hevent : Creation event) (hclean : CleanStep kernelPml4 s event)
    (hstep : SpaceStep kernelPml4 s event next) :
    CreatedPages kernelPml4 start next ∧ StacksKept s next := by
  cases hstep with
  | create hcreate =>
    obtain ⟨userStack, hcreated⟩ := elfCreated hpages.spaces (Or.inl rfl) hclean hcreate
    exact hpages.create hstart hcreated
  | alloc halloc hne =>
    have htook := took_of_pmmAllocPage hpages.spaces.ready.region halloc hne
    have hsupply := htook.supply hpages.spaces.ready
    refine ⟨⟨hpages.toSpaceInvariant.alloc htook, hpages.stackSlot,
      fun page hpage ↦ hpages.available page (hsupply.rest page hpage).1, hpages.nodup,
      fun page hpage ↦ ?_⟩, fun pages hmem ↦ ⟨hmem, rfl⟩⟩
    obtain ⟨hfree, htaken⟩ := hpages.taken page hpage
    exact ⟨hfree, fun havailable ↦ htaken (hsupply.rest page havailable).1⟩
  | free => exact hevent.elim
  | map => exact hevent.elim
  | unmap => exact hevent.elim
  | write hagree =>
    rename_i written
    obtain ⟨hinv, hsame⟩ := hpages.toSpaceInvariant.write hagree
    have hstacks : ∀ pages ∈ s.processes, vmmResolve pages.newPml4Pa userStackPage written =
        vmmResolve pages.newPml4Pa userStackPage s.memory := by
      intro pages hmem
      refine vmmResolve_congr (funext fun page ↦ ?_) userStackPage
      exact hsame _ (Or.inr ⟨pages, hmem, rfl⟩) (indicesOf page) (le_refl 4)
    have hall : SpaceState.pages { s with memory := written } = s.pages :=
      flatMap_processPages_congr hstacks
    refine ⟨⟨hinv, ?_, hpages.available, ?_, ?_⟩, fun pages hmem ↦ ⟨hmem, hstacks pages hmem⟩⟩
    · show tableAt written kernelPml4 [pml4Idx userStackPage] = none
      rw [hsame kernelPml4 (Or.inl rfl) _ (by simp), hpages.stackSlot]
    · rw [hall]
      exact hpages.nodup
    · rw [hall]
      exact hpages.taken

/-! ### Every run -/

/-- Every run of creations keeps the pages of the processes apart. -/
theorem createdPages_of_run (hspaces : Spaces (fun root ↦ root = kernelPml4) memory start)
    (hslot : tableAt memory kernelPml4 [pml4Idx userStackPage] = none) {events : List SpaceEvent}
    (hrun : (creationSystem kernelPml4 memory start).Run events s) :
    CreatedPages kernelPml4 start s := by
  refine hrun.invariant ?_ fun state event next hstate hstep ↦
    (hstate.step hspaces.ready hstep.1.1 hstep.1.2 hstep.2).1
  rintro state rfl
  exact ⟨spaceInvariant_start hspaces, hslot, fun _ hpage ↦ hpage, List.nodup_nil, by
    simp [SpaceState.pages]⟩

/-- Later creations keep the user stacks of the processes that are there. -/
theorem stacksKept_of_path (hstart : SupplyReady start) (hpages : CreatedPages kernelPml4 start s)
    {events : List SpaceEvent}
    (hpath : (creationSystem kernelPml4 memory start).Path s events next) : StacksKept s next := by
  refine (hpath.preserves (motive := fun state ↦ CreatedPages kernelPml4 start state ∧
    StacksKept s state) ?_ ⟨hpages, fun pages hmem ↦ ⟨hmem, rfl⟩⟩).2
  rintro state event after ⟨hstate, hkept⟩ hstep
  obtain ⟨hafter, hstacks⟩ := hstate.step hstart hstep.1.1 hstep.1.2 hstep.2
  refine ⟨hafter, fun pages hmem ↦ ?_⟩
  obtain ⟨hmiddle, hsame⟩ := hkept pages hmem
  obtain ⟨hlast, hlastSame⟩ := hstacks pages hmiddle
  exact ⟨hlast, hlastSame.trans hsame⟩

/-- In every run of creations with zeroed tables, from a state whose kernel PML4 has no entry for
the slot of the user stack, the pages of all processes are distinct pages of the page allocator that
were free and are in use, none of them page 0, and later steps keep the user stacks. -/
theorem createdPages_correct {events : List SpaceEvent}
    (hspaces : Spaces (fun root ↦ root = kernelPml4) memory start)
    (hslot : tableAt memory kernelPml4 [pml4Idx userStackPage] = none)
    (hrun : (creationSystem kernelPml4 memory start).Run events s) :
    s.pages.Nodup ∧
      (∀ page ∈ s.pages, page ≠ 0#64 ∧ FreePage start.pmm page ∧ ¬ FreePage s.supply.pmm page) ∧
        ∀ laterEvents later,
          (creationSystem kernelPml4 memory start).Path s laterEvents later →
            StacksKept s later := by
  have hpages := createdPages_of_run hspaces hslot hrun
  refine ⟨hpages.nodup, fun page hpage ↦ ?_, fun _ _ hpath ↦
    stacksKept_of_path hspaces.ready hpages hpath⟩
  obtain ⟨hfree, htaken⟩ := hpages.taken page hpage
  refine ⟨?_, hfree, fun hstill ↦ htaken (Or.inr hstill)⟩
  rintro rfl
  have hregion := hfree.inRegion
  have hbase := hspaces.ready.region.base_ge
  rw [BitVec.toNat_ofNat, Nat.zero_mod] at hregion
  omega

end Creation

/-- A machine with a region of 16 pages, right after boot. -/
def smallBoot : Memory × TableSupply :=
  bootState BootLayout.low (fun _ ↦ 0#8) Pmm.bss 0x200000#64 0x10000#64

theorem spaces_smallBoot :
    Spaces (fun root ↦ root = BootLayout.low.pml4Table) smallBoot.1 smallBoot.2 ∧
      PagesTaken smallBoot.2.pmm 0 smallBoot.2.pmm ∧ smallBoot.2.pmm.pmmTotalPages.toNat = 16 := by
  have hbss : BssCleared BootLayout.low fun _ ↦ 0#8 := fun _ _ _ ↦ rfl
  have hregion : RegionReady (pmmInit Pmm.bss 0x200000#64 0x10000#64) :=
    regionReady_pmmInit Pmm.bss (by decide) (by decide)
  have hspaces := spaces_setupPaging BootLayout.low hbss hregion
  have htaken := pagesTaken_pmmInit Pmm.bss 0x200000#64 0x10000#64 hregion
  have htotal := toNat_totalPages_pmmInit Pmm.bss 0x200000#64 0x10000#64
  simp only [smallBoot, bootState]
  exact ⟨hspaces, htaken, htotal⟩

theorem stackSlot_smallBoot :
    tableAt smallBoot.1 BootLayout.low.pml4Table [pml4Idx userStackPage] = none := by
  have hbss : BssCleared BootLayout.low fun _ ↦ 0#8 := fun _ _ _ ↦ rfl
  rw [smallBoot, bootState, tableAt_setupPaging BootLayout.low hbss _ (by decide),
    if_neg (by decide)]

/-- Two processes created right after boot. -/
theorem createdPages_correct_two :
    ∃ events s,
      (creationSystem BootLayout.low.pml4Table smallBoot.1 smallBoot.2).Run events s ∧
        s.processes.length = 2 ∧ s.pages.Nodup ∧
          (∀ page ∈ s.pages, page ≠ 0#64 ∧ FreePage smallBoot.2.pmm page ∧
            ¬ FreePage s.supply.pmm page) ∧
          ∀ laterEvents later, (creationSystem BootLayout.low.pml4Table smallBoot.1
            smallBoot.2).Path s laterEvents later → StacksKept s later := by
  obtain ⟨hspaces, hfree, htotal⟩ := spaces_smallBoot
  obtain ⟨first, middle, hfirst⟩ := exists_create (s := ⟨smallBoot.1, smallBoot.2, [], []⟩)
    (spaceInvariant_start hspaces) hfree (by rw [htotal]; decide) (by decide)
  have htotalMiddle : middle.supply.pmm.pmmTotalPages.toNat = 16 := by
    rw [hfirst.total_eq, htotal]
  have hused : middle.supply.ptPoolUsed.toNat ≤ 0 + 3 * 4096 := hfirst.used_le
  obtain ⟨second, s, hsecond⟩ := exists_create hfirst.invariant hfirst.taken (by omega) (by omega)
  have hstart : (creationSystem BootLayout.low.pml4Table smallBoot.1 smallBoot.2).Run []
      ⟨smallBoot.1, smallBoot.2, [], []⟩ := TransitionSystem.Run.start rfl
  have hrun := (hstart.step ⟨⟨creation_create first, hfirst.clean⟩, hfirst.step⟩).step
    ⟨⟨creation_create second, hsecond.clean⟩, hsecond.step⟩
  refine ⟨_, s, hrun, ?_, createdPages_correct hspaces stackSlot_smallBoot hrun⟩
  rw [hsecond.processes, hfirst.processes]
  rfl

end Colix.Proc
