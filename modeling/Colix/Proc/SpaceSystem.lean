import Colix.Foundation.Execution
import Colix.Mm.HeldPages
import Colix.Proc.AddressSpaces

/-!
# Runs of the address spaces

The kernel's address space and those of the processes, over whole runs: processes are created, the
page allocator serves other callers, pages are mapped and unmapped in any of the address spaces, and
the rest of the kernel writes to memory that holds no page table.

`SpaceInvariant` is what every run keeps whose directories come zeroed (`CleanStep`): the address
spaces have tables in common only behind slots of the kernel's PML4, and no page that was handed out
can be handed out again.
-/

set_option autoImplicit false
set_option relaxedAutoImplicit false

namespace Colix.Proc

open Foundation Mm

/-! ### The system -/

/-- What address spaces depend on: memory, where pages come from, the processes that
`proc_create_elf` returned, and the pages that other callers got and did not free. -/
structure SpaceState where
  memory : Memory
  supply : TableSupply
  processes : List ElfPages
  held : List Word

/-- What can happen to the address spaces. -/
inductive SpaceEvent
  | create (pages : ElfPages)
  | alloc (page : Word)
  | free (page : Word)
  | map (root virt phys flags : Word)
  | unmap (root virt : Word)
  | write

/-- The PML4s in use: the kernel's and those of the processes. -/
def SpaceState.Root (kernelPml4 : Word) (s : SpaceState) (root : Word) : Prop :=
  root = kernelPml4 ∨ ∃ pages ∈ s.processes, root = pages.newPml4Pa

/-- The steps. A page is freed by the caller that got it. -/
inductive SpaceStep (kernelPml4 : Word) : SpaceState → SpaceEvent → SpaceState → Prop
  | create {s : SpaceState} {pages : ElfPages} {memory : Memory} {supply : TableSupply} :
      createElfPages kernelPml4 s.memory s.supply = some (pages, memory, supply) →
        SpaceStep kernelPml4 s (.create pages)
          { s with memory := memory, supply := supply, processes := s.processes ++ [pages] }
  | alloc {s : SpaceState} {page : Word} {pmm : Pmm} :
      pmmAllocPage s.supply.pmm = (page, pmm) → page ≠ 0#64 →
        SpaceStep kernelPml4 s (.alloc page)
          { s with supply := { s.supply with pmm := pmm }, held := page :: s.held }
  | free {s : SpaceState} {page : Word} :
      page ∈ s.held → SpaceStep kernelPml4 s (.free page)
        { s with
          supply := { s.supply with pmm := pmmFreePage s.supply.pmm page }
          held := s.held.erase page }
  | map {s : SpaceState} {root virt phys flags : Word} {memory : Memory} {supply : TableSupply} :
      s.Root kernelPml4 root →
        vmmMap allocTable root virt phys flags s.memory s.supply = some (memory, supply) →
          SpaceStep kernelPml4 s (.map root virt phys flags)
            { s with memory := memory, supply := supply }
  | unmap {s : SpaceState} {root virt : Word} :
      s.Root kernelPml4 root →
        SpaceStep kernelPml4 s (.unmap root virt)
          { s with memory := vmmUnmap root virt s.memory }
  | write {s : SpaceState} {memory : Memory} :
      (∀ root table, s.Root kernelPml4 root → TableOf s.memory root table → ∀ position,
        InPage table position → memory position = s.memory position) →
          SpaceStep kernelPml4 s .write { s with memory := memory }

/-- The runs of the address spaces from the given states. -/
def spaceSystem (kernelPml4 : Word) (start : SpaceState → Prop) :
    TransitionSystem SpaceState SpaceEvent where
  start := start
  step := SpaceStep kernelPml4

/-- The state after `vmm_init`, before any process is created. -/
def Booted (kernelPml4 : Word) (boot : Memory × TableSupply) (s : SpaceState) : Prop :=
  vmmInit kernelPml4 boot = some (s.memory, s.supply) ∧ s.processes = [] ∧ s.held = []

/-- The directories that a step makes come zeroed. -/
def CleanStep (kernelPml4 : Word) (s : SpaceState) : SpaceEvent → Prop
  | .create _ => CleanCreate kernelPml4 s.memory s.supply
  | .map root virt _ _ => CleanDirectories s.memory s.supply root virt
  | _ => True

/-- A step that maps and unmaps nothing at a virtual page. -/
def SpaceEvent.Avoids (page : VirtualPage) : SpaceEvent → Prop
  | .create _ => page ≠ virtualPage userStackPage
  | .map _ virt _ _ | .unmap _ virt => page ≠ virtualPage virt
  | _ => True

/-- The runs after `vmm_init` whose directories come zeroed and that map and unmap nothing at an
address of the kernel's. -/
def keepingSystem (kernelPml4 : Word) (boot : Memory × TableSupply) (kernel : Word → Prop) :
    TransitionSystem SpaceState SpaceEvent :=
  (spaceSystem kernelPml4 (Booted kernelPml4 boot)).restrict
    fun s event ↦ CleanStep kernelPml4 s event ∧
      ∀ address, kernel address → event.Avoids (virtualPage address)

/-! ### The invariant -/

/-- The address spaces, the processes' PML4s and the pages handed out are kept apart. -/
structure SpaceInvariant (kernelPml4 : Word) (s : SpaceState) : Prop where
  spaces : Spaces (s.Root kernelPml4) s.memory s.supply
  roots_nodup : (kernelPml4 :: s.processes.map ElfPages.newPml4Pa).Nodup
  /-- Two address spaces share only slots that the kernel's PML4 has. -/
  shares : ∀ first second index, s.Root kernelPml4 first → s.Root kernelPml4 second →
    first ≠ second → SharesSlot s.memory first second index →
      ∃ table, tableAt s.memory kernelPml4 [index] = some table
  held_nodup : s.held.Nodup
  held_aligned : ∀ page ∈ s.held, PageAligned page
  held_taken : ∀ page ∈ s.held, ¬ Available s.supply page
  held_unused : ∀ page ∈ s.held, ∀ root, s.Root kernelPml4 root → ¬ TableOf s.memory root page

section Invariant

variable {kernelPml4 root virt page : Word} {s next : SpaceState} {event : SpaceEvent}
  {pages : ElfPages} {memory : Memory} {supply : TableSupply}

/-- The kernel's address space alone, with no page handed out. -/
theorem spaceInvariant_start (hspaces : Spaces (fun root ↦ root = kernelPml4) memory supply) :
    SpaceInvariant kernelPml4 ⟨memory, supply, [], []⟩ := by
  have hroot :
      (fun root ↦ root = kernelPml4) = SpaceState.Root kernelPml4 ⟨memory, supply, [], []⟩ := by
    funext root
    simp [SpaceState.Root]
  rw [hroot] at hspaces
  refine ⟨hspaces, by simp, ?_, List.nodup_nil, by simp, by simp, by simp⟩
  intro first second index hfirst hsecond hne
  rw [← hroot] at hfirst hsecond
  exact absurd (hfirst.trans hsecond.symm) hne

/-- Adding a process adds its PML4. -/
theorem root_append_iff (s : SpaceState) (memory : Memory) (supply : TableSupply) :
    SpaceState.Root kernelPml4
        { s with memory := memory, supply := supply, processes := s.processes ++ [pages] } =
      fun root ↦ root = pages.newPml4Pa ∨ s.Root kernelPml4 root := by
  funext root
  simp only [SpaceState.Root, List.mem_append, List.mem_singleton, eq_iff_iff]
  constructor
  · rintro (rfl | ⟨other, hother | rfl, rfl⟩)
    · exact Or.inr (Or.inl rfl)
    · exact Or.inr (Or.inr ⟨other, hother, rfl⟩)
    · exact Or.inl rfl
  · rintro (rfl | rfl | ⟨other, hother, rfl⟩)
    · exact Or.inr ⟨pages, Or.inr rfl, rfl⟩
    · exact Or.inl rfl
    · exact Or.inr ⟨other, Or.inl hother, rfl⟩

/-- A PML4 in use can not be handed out. -/
theorem SpaceInvariant.root_not_available (hinv : SpaceInvariant kernelPml4 s)
    (hroot : s.Root kernelPml4 root) : ¬ Available s.supply root :=
  hinv.spaces.used root root hroot ⟨[], Nat.zero_le _, rfl⟩

theorem SpaceInvariant.heldPages (hinv : SpaceInvariant kernelPml4 s) :
    HeldPages (s.Root kernelPml4) s.memory s.supply s.held :=
  ⟨hinv.held_nodup, hinv.held_aligned, hinv.held_taken, hinv.held_unused⟩

/-- What a map or an unmap does to all address spaces keeps the invariant. -/
theorem SpaceInvariant.update (hinv : SpaceInvariant kernelPml4 s)
    {value : Option Word}
    (hupdate : SpaceUpdate (s.Root kernelPml4) root virt value s.memory s.supply memory supply) :
    SpaceInvariant kernelPml4 { s with memory := memory, supply := supply } := by
  obtain ⟨hnodup, haligned, htaken, hunused⟩ := hinv.heldPages.update hupdate
  refine ⟨hupdate.spaces, hinv.roots_nodup, ?_, hnodup, haligned, htaken, hunused⟩
  · have hold : ∀ first second index, s.Root kernelPml4 first → s.Root kernelPml4 second →
        first ≠ second → SharesSlot memory first second index →
          SharesSlot s.memory first second index := by
      intro first second index hfirst hsecond hne hshares
      by_cases hsecondRoot : second = root
      · refine (hinv.spaces.sharesSlot_of_next hsecond hfirst ?_ ?_ hshares.symm).symm
        · exact hupdate.slot first hfirst (fun heq ↦ hne (heq.trans hsecondRoot.symm)) index
        · exact fun table ↦ hupdate.tables second table hsecond
      · exact hinv.spaces.sharesSlot_of_next hfirst hsecond
          (hupdate.slot second hsecond hsecondRoot index)
          (fun table ↦ hupdate.tables first table hfirst) hshares
    intro first second index hfirst hsecond hne hshares
    obtain ⟨table, htable⟩ := hinv.shares first second index hfirst hsecond hne
      (hold first second index hfirst hsecond hne hshares)
    exact ⟨table, hupdate.keptTables kernelPml4 (Or.inl rfl) [index] (by simp) table htable⟩

/-- Creating a process keeps the invariant. -/
theorem SpaceInvariant.create (hinv : SpaceInvariant kernelPml4 s) {userStack : Word}
    (hcreated : ElfCreated (s.Root kernelPml4) kernelPml4 s.memory s.supply pages userStack memory
      supply) :
    SpaceInvariant kernelPml4
      { s with memory := memory, supply := supply, processes := s.processes ++ [pages] } := by
  have hnew : ¬ s.Root kernelPml4 pages.newPml4Pa := fun hroot ↦
    hinv.root_not_available hroot (Or.inr hcreated.pml4_taken.free)
  obtain ⟨hnodup, haligned, htaken, hunused⟩ :=
    hinv.heldPages.grown hcreated.available hcreated.tables
  refine ⟨?_, ?_, ?_, hnodup, haligned, htaken, ?_⟩
  · rw [root_append_iff]
    exact hcreated.spaces
  · rw [List.map_append, ← List.cons_append]
    refine List.Nodup.append hinv.roots_nodup (by simp) ?_
    rw [List.map_singleton, List.disjoint_singleton, List.mem_cons, List.mem_map]
    rintro (heq | ⟨other, hother, heq⟩)
    · exact hnew (Or.inl heq)
    · exact hnew (Or.inr ⟨other, hother, heq.symm⟩)
  · have hkernel :
        ∀ index, tableAt memory kernelPml4 [index] = tableAt s.memory kernelPml4 [index] :=
      hcreated.slot kernelPml4 (Or.inl rfl)
    rw [root_append_iff]
    rintro first second index (rfl | hfirst) (rfl | hsecond) hne hshares
    · exact absurd rfl hne
    · rw [hkernel index]
      exact hcreated.shares second index hsecond hshares
    · rw [hkernel index]
      exact hcreated.shares first index hfirst hshares.symm
    · rw [hkernel index]
      refine hinv.shares first second index hfirst hsecond hne ?_
      obtain ⟨table, htable, htableSecond⟩ := hshares
      rw [← tableAt_singleton, hcreated.slot first hfirst, tableAt_singleton] at htable
      rw [← tableAt_singleton, hcreated.slot second hsecond, tableAt_singleton] at htableSecond
      exact ⟨table, htable, htableSecond⟩
  · rw [root_append_iff]
    exact hunused

/-- What `pmm_alloc` hands out is apart from all that is in use. -/
theorem SpaceInvariant.alloc (hinv : SpaceInvariant kernelPml4 s) {pmm : Pmm}
    (htook : Took s.supply.pmm page pmm) :
    SpaceInvariant kernelPml4
      { s with supply := { s.supply with pmm := pmm }, held := page :: s.held } := by
  obtain ⟨hnodup, haligned, htaken, hunused⟩ := hinv.heldPages.alloc hinv.spaces htook
  exact ⟨hinv.spaces.take htook, hinv.roots_nodup, hinv.shares, hnodup, haligned, htaken, hunused⟩

/-- Freeing a page that was handed out keeps the invariant. -/
theorem SpaceInvariant.free (hinv : SpaceInvariant kernelPml4 s) (hpage : page ∈ s.held) :
    SpaceInvariant kernelPml4
      { s with
        supply := { s.supply with pmm := pmmFreePage s.supply.pmm page }
        held := s.held.erase page } := by
  obtain ⟨hspaces, hnodup, haligned, htaken, hunused⟩ := hinv.heldPages.free hinv.spaces hpage
  exact ⟨hspaces, hinv.roots_nodup, hinv.shares, hnodup, haligned, htaken, hunused⟩

/-- Writing to memory that holds no page table keeps the invariant, and all mappings. -/
theorem SpaceInvariant.write (hinv : SpaceInvariant kernelPml4 s)
    (hagree : ∀ root table, s.Root kernelPml4 root → TableOf s.memory root table → ∀ position,
      InPage table position → memory position = s.memory position) :
    SpaceInvariant kernelPml4 { s with memory := memory } ∧
      ∀ root, s.Root kernelPml4 root → ∀ path : List TableIndex, path.length ≤ 4 →
        tableAt memory root path = tableAt s.memory root path := by
  obtain ⟨hspaces, hsame⟩ := hinv.spaces.congr hinv.spaces.ready (fun _ ↦ Or.inl) hagree
  have hslot : ∀ root, s.Root kernelPml4 root → ∀ index,
      tableAt memory root [index] = tableAt s.memory root [index] :=
    fun root hroot index ↦ hsame root hroot [index] (by simp)
  refine ⟨⟨hspaces, hinv.roots_nodup, ?_, hinv.held_nodup, hinv.held_aligned, hinv.held_taken, ?_⟩,
    hsame⟩
  · intro first second index hfirst hsecond hne hshares
    show ∃ table, tableAt memory kernelPml4 [index] = some table
    rw [hslot kernelPml4 (Or.inl rfl)]
    refine hinv.shares first second index hfirst hsecond hne ?_
    obtain ⟨table, htable, htableSecond⟩ := hshares
    rw [← tableAt_singleton, hslot first hfirst, tableAt_singleton] at htable
    rw [← tableAt_singleton, hslot second hsecond, tableAt_singleton] at htableSecond
    exact ⟨table, htable, htableSecond⟩
  · rintro page hpage root hroot ⟨path, hlength, hreach⟩
    exact hinv.held_unused page hpage root hroot
      ⟨path, hlength, (hsame root hroot path (by omega)).symm.trans hreach⟩

/-- `pmm_alloc` returns a page that was free. -/
theorem took_of_pmmAllocPage {pmm pmmNext : Pmm} (hready : RegionReady pmm)
    (halloc : pmmAllocPage pmm = (page, pmmNext)) (hne : page ≠ 0#64) : Took pmm page pmmNext := by
  rw [pmmAllocPage] at halloc
  rcases hready.pmmAlloc_cases with ⟨hnull, -⟩ | ⟨other, otherNext, hother, -, htook⟩
  · rw [hnull, Prod.mk.injEq] at halloc
    exact absurd halloc.1.symm hne
  · rw [hother, Prod.mk.injEq] at halloc
    obtain ⟨rfl, rfl⟩ := halloc
    exact htook

/-- Every step keeps the invariant. Assumes: the directories it makes come zeroed. -/
theorem SpaceInvariant.step (hinv : SpaceInvariant kernelPml4 s)
    (hclean : CleanStep kernelPml4 s event) (hstep : SpaceStep kernelPml4 s event next) :
    SpaceInvariant kernelPml4 next := by
  cases hstep with
  | create hcreate =>
    obtain ⟨userStack, hcreated⟩ := elfCreated hinv.spaces (Or.inl rfl) hclean hcreate
    exact hinv.create hcreated
  | alloc halloc hne => exact hinv.alloc (took_of_pmmAllocPage hinv.spaces.ready.region halloc hne)
  | free hpage => exact hinv.free hpage
  | map hroot hmap => exact hinv.update (hinv.spaces.map hroot hclean hmap)
  | unmap hroot => exact hinv.update (hinv.spaces.unmap hroot _)
  | write hagree => exact (hinv.write hagree).1

/-- A step keeps what an address space has at the virtual pages it avoids. -/
theorem SpaceInvariant.kept (hinv : SpaceInvariant kernelPml4 s)
    (hclean : CleanStep kernelPml4 s event) (hstep : SpaceStep kernelPml4 s event next)
    (hroot : s.Root kernelPml4 root) {page : VirtualPage} (havoids : event.Avoids page)
    {phys : Word}
    (hpage : pageMap s.memory root page = some phys) :
    pageMap next.memory root page = some phys := by
  cases hstep with
  | create hcreate =>
    obtain ⟨userStack, hcreated⟩ := elfCreated hinv.spaces (Or.inl rfl) hclean hcreate
    exact hcreated.kept root hroot page havoids phys hpage
  | alloc => exact hpage
  | free => exact hpage
  | map hmapRoot hmap =>
    exact (hinv.spaces.map hmapRoot hclean hmap).kept root hroot page havoids phys hpage
  | unmap hmapRoot =>
    exact (hinv.spaces.unmap hmapRoot _).kept root hroot page havoids phys hpage
  | write hagree =>
    rw [← hpage]
    exact (hinv.write hagree).2 root hroot (indicesOf page) (le_refl 4)

/-- What `vmm_init` maps the kernel's addresses to, they are mapped to in every run that keeps
them. -/
theorem mapped_of_keepingSystem {boot : Memory × TableSupply} {kernel : Word → Prop}
    {target : Word → Word → Prop} (hboot : ∀ start, Booted kernelPml4 boot start →
      SpaceInvariant kernelPml4 start ∧ ∀ address, kernel address → ∃ page,
        pageMap start.memory kernelPml4 (virtualPage address) = some page ∧ target address page)
    {events : List SpaceEvent} (hrun : (keepingSystem kernelPml4 boot kernel).Run events s) :
    SpaceInvariant kernelPml4 s ∧ ∀ address, kernel address → ∃ page,
      pageMap s.memory kernelPml4 (virtualPage address) = some page ∧ target address page := by
  refine hrun.invariant (motive := fun s ↦ SpaceInvariant kernelPml4 s ∧ ∀ address,
    kernel address → ∃ page,
      pageMap s.memory kernelPml4 (virtualPage address) = some page ∧ target address page)
    hboot ?_
  rintro s event next ⟨hinv, hmapped⟩ ⟨⟨hclean, havoids⟩, hstep⟩
  refine ⟨hinv.step hclean hstep, fun address haddress ↦ ?_⟩
  obtain ⟨page, hpage, htarget⟩ := hmapped address haddress
  exact ⟨page, hinv.kept hclean hstep (Or.inl rfl) (havoids address haddress) hpage, htarget⟩

/-- A process that was created from the pool, in a step whose directories come zeroed. -/
structure CreatedNext (kernelPml4 : Word) (start : Pmm) (count : ℕ) (s : SpaceState)
    (pages : ElfPages) (next : SpaceState) : Prop where
  clean : CleanStep kernelPml4 s (.create pages)
  step : SpaceStep kernelPml4 s (.create pages) next
  processes : next.processes = s.processes ++ [pages]
  created : ∃ userStack, ElfCreated (s.Root kernelPml4) kernelPml4 s.memory s.supply pages userStack
    next.memory next.supply
  invariant : SpaceInvariant kernelPml4 next
  taken : PagesTaken start (count + 3) next.supply.pmm
  total_eq : next.supply.pmm.pmmTotalPages = s.supply.pmm.pmmTotalPages
  used_le : next.supply.ptPoolUsed.toNat ≤ s.supply.ptPoolUsed.toNat + 3 * 4096

/-- A process can be created when the next three pages of the region are free and the pool has three
pages left. -/
theorem exists_create {start : Pmm} {count : ℕ} (hinv : SpaceInvariant kernelPml4 s)
    (htaken : PagesTaken start count s.supply.pmm)
    (hcount : count + 3 ≤ s.supply.pmm.pmmTotalPages.toNat)
    (hpool : s.supply.ptPoolUsed.toNat + 3 * 4096 ≤ 262144) :
    ∃ pages next, CreatedNext kernelPml4 start count s pages next := by
  obtain ⟨hclean, pages, memory, supply, hcreate, -, hnextTaken, hused⟩ :=
    createElfPages_pool kernelPml4 s.memory hinv.spaces.ready htaken hcount hpool
  obtain ⟨userStack, hcreated⟩ := elfCreated hinv.spaces (Or.inl rfl) hclean hcreate
  exact ⟨pages, _, hclean, SpaceStep.create hcreate, rfl, ⟨userStack, hcreated⟩,
    hinv.create hcreated, hnextTaken, hnextTaken.total_eq.trans htaken.total_eq.symm, hused⟩

end Invariant

end Colix.Proc
