import Colix.Elf.OneSegment
import Colix.Mm.UntouchedMemory
import Colix.Proc.DirectPages

/-!
# Memory that nobody writes to

Runs of the address spaces that map nothing at a direct page and have no page table at an address of
the heap, in which some addresses below 2 MiB are not written to. These may lie in any page that is
no table of `vmm_init` and not in the pool. `quiet_run` says that the kernel then reads there,
through its page tables and in every state, what stood there before `vmm_init`: page tables, new
processes and pages that are handed out come to lie elsewhere.

The condition on the page tables is one on the region and on how long the pool lasts. Where it holds
the kernel reaches the tables where they lie (`QuietInvariant.tablesInPlace`).
-/

set_option autoImplicit false
set_option relaxedAutoImplicit false

namespace Colix.Proc

open Foundation Mm Elf

/-! ### The system -/

/-- The runs after `vmm_init` whose directories come zeroed, that map nothing at a direct page and
have only direct pages as page tables, and that write nothing at the quiet addresses. -/
def quietSystem (kernelPml4 : Word) (boot : Memory × TableSupply) (quiet : Word → Prop) :
    TransitionSystem SpaceState SpaceEvent where
  start s := Booted kernelPml4 boot s ∧ TablesDirect kernelPml4 (Direct boot.2.pmm) s
  step s event next := (directSystem kernelPml4 boot).step s event next ∧
    TablesDirect kernelPml4 (Direct boot.2.pmm) next ∧
      (event = .write → ∀ address, quiet address →
        next.memory address.toNat = s.memory address.toNat)

/-- What the kernel reads at its addresses, zero where it would fault. -/
def readThrough (pml4 : Word) (memory : Memory) : Memory :=
  fun position ↦ (readByte pml4 memory (BitVec.ofNat 64 position)).getD 0#8

/-- The direct pages are mapped to themselves, the quiet addresses hold what they held, and the
pages handed out lie above them. -/
structure QuietInvariant (kernelPml4 : Word) (boot : Memory × TableSupply) (quiet : Word → Prop)
    (s : SpaceState) : Prop where
  space : DirectMapped kernelPml4 (Direct boot.2.pmm) s
  tables : TablesDirect kernelPml4 (Direct boot.2.pmm) s
  untouched : Untouched quiet boot.1 (s.Root kernelPml4) s.memory s.supply
  held : ∀ page ∈ s.held, 0x200000 ≤ page.toNat

/-- The page of an address below 2 MiB is direct. -/
theorem direct_pageOf {pmm : Pmm} {address : Word} (hlow : address.toNat < 0x200000) :
    Direct pmm (pageOf address) := by
  have hpage := toNat_pageOf address
  exact ⟨pageAligned_pageOf address, Or.inl (by omega)⟩

section Create

variable {quiet roots : Word → Prop} {kernelPml4 newPml4Pa : Word}
  {start memory middle next : Memory} {supply supplyMiddle supplyNext : TableSupply}
  {pages : ElfPages}

/-- The new PML4 is written in its page. -/
theorem createPml4_apply {position : ℕ}
    (hcreate : createPml4 kernelPml4 memory supply = some (newPml4Pa, middle, supplyMiddle))
    (houtside : ¬ InPage newPml4Pa position) : middle position = memory position := by
  rw [createPml4] at hcreate
  rcases halloc : pmmAllocPage supply.pmm with ⟨page, pmm⟩
  simp only [halloc] at hcreate
  split_ifs at hcreate
  simp only [Option.some.injEq, Prod.mk.injEq] at hcreate
  obtain ⟨rfl, rfl, -⟩ := hcreate
  rw [InPage] at houtside
  rw [copyBytes_apply_of_disjoint (by omega), fillBytes_apply_of_disjoint (by omega)]

/-- `proc_create_elf` leaves the quiet addresses alone. -/
theorem untouched_create (hquiet : Untouched quiet start roots memory supply)
    (hspaces : Spaces roots memory supply) (hkernel : roots kernelPml4)
    (hclean : CleanCreate kernelPml4 memory supply)
    (hcreate : createElfPages kernelPml4 memory supply = some (pages, next, supplyNext)) :
    Untouched quiet start (fun root ↦ root = pages.newPml4Pa ∨ roots root) next supplyNext := by
  obtain ⟨_, hcreated⟩ := elfCreated hspaces hkernel hclean hcreate
  obtain ⟨userStack, middle, supplyMiddle, stackPmm, supplyMapped, hcalls⟩ :=
    exists_elfCalls hspaces hkernel hclean hcreate
  have hmiddle := (pml4Created hspaces hkernel hcalls.pml4).spaces.take hcalls.stack
  have hcleanMap := hclean _ _ _ hcalls.pml4
  rw [hcalls.allocated] at hcleanMap
  refine hquiet.grown hcreated.available hcreated.tables fun address haddress ↦ ?_
  have haligned : ∀ table, Available supply table ∨ (∃ owner, roots owner ∧
      TableOf memory owner table) → ¬ InPage table address.toNat := by
    rintro table (hfree | ⟨owner, howner, htable⟩)
    · refine not_inPage_of_ne (hspaces.ready.pageAligned hfree) (pageAligned_pageOf address) ?_
        (inPage_pageOf address)
      rintro rfl
      exact hquiet.taken address haddress hfree
    · exact hquiet.not_inPage hspaces howner haddress htable
  have hnew : ¬ InPage pages.newPml4Pa address.toNat :=
    haligned _ (Or.inl (Or.inr hcreated.pml4_taken.free))
  rw [hmiddle.map_frame (Or.inl rfl) hcleanMap hcalls.map fun table htable ↦
    haligned table (hcreated.tables _ table (Or.inl rfl) htable)]
  exact createPml4_apply hcalls.pml4 hnew

end Create

/-! ### Runs -/

section Run

variable {quiet : Word → Prop} {kernelPml4 address : Word} {boot : Memory × TableSupply}
  {s next : SpaceState} {event : SpaceEvent} {events : List SpaceEvent}

/-- The page tables are where the kernel reaches them. -/
theorem QuietInvariant.tablesInPlace (hinv : QuietInvariant kernelPml4 boot quiet s) :
    TablesInPlace kernelPml4 s :=
  hinv.space.tablesInPlace hinv.tables

/-- An address below 2 MiB is mapped to itself. -/
theorem QuietInvariant.own (hinv : QuietInvariant kernelPml4 boot quiet s)
    (hlow : address.toNat < 0x200000) :
    pageMap s.memory kernelPml4 (virtualPage address) = some (pageOf address) := by
  rw [← virtualPage_pageOf]
  exact hinv.space.mapped kernelPml4 (pageOf address) (Or.inl rfl) (direct_pageOf hlow)

/-- A page that is freed lies above the quiet addresses. -/
theorem QuietInvariant.free (hinv : QuietInvariant kernelPml4 boot quiet s)
    (hlow : ∀ address, quiet address → address.toNat < 0x200000) {page : Word}
    (hpage : page ∈ s.held) :
    Untouched quiet boot.1 (s.Root kernelPml4) s.memory
      { s.supply with pmm := pmmFreePage s.supply.pmm page } := by
  obtain ⟨-, havailable⟩ := available_of_pmmFree hinv.space.spaces.ready
    (hinv.space.held_aligned page hpage)
  refine ⟨fun address haddress hnext ↦ ?_, hinv.untouched.unused, hinv.untouched.bytes⟩
  rcases havailable _ hnext with hold | hsame
  · exact hinv.untouched.taken address haddress hold
  · have habove := hinv.held page hpage
    have hbelow := hlow address haddress
    rw [← hsame, toNat_pageOf] at habove
    omega

/-- Every step keeps the quiet addresses. -/
theorem QuietInvariant.step (hinv : QuietInvariant kernelPml4 boot quiet s)
    (hlow : ∀ address, quiet address → address.toNat < 0x200000)
    (hstep : (quietSystem kernelPml4 boot quiet).step s event next) :
    QuietInvariant kernelPml4 boot quiet next := by
  obtain ⟨⟨⟨hclean, havoids⟩, hspace⟩, htables, hwrites⟩ := hstep
  have hspaces := hinv.space.spaces
  refine ⟨hinv.space.step hclean havoids hspace, htables, ?_, ?_⟩
  · cases hspace with
    | create hcreate =>
      rw [root_append_iff]
      exact untouched_create hinv.untouched hspaces (Or.inl rfl) hclean hcreate
    | alloc halloc hne =>
      exact hinv.untouched.take hspaces.ready (took_of_pmmAllocPage hspaces.ready.region halloc hne)
    | free hpage => exact hinv.free hlow hpage
    | map hroot hmap => exact hinv.untouched.map hspaces hroot hclean hmap
    | unmap hroot => exact hinv.untouched.unmap hspaces hroot _
    | write hagree =>
      obtain ⟨-, hsame⟩ := hinv.space.write hagree
      refine hinv.untouched.grown (fun _ hpage ↦ hpage) ?_ (hwrites rfl)
      rintro root table hroot ⟨path, hlength, hreach⟩
      have hbefore := (hsame root hroot path (by omega)).symm.trans hreach
      exact Or.inr ⟨root, hroot, path, hlength, hbefore⟩
  · cases hspace with
    | create | map | unmap | write => exact hinv.held
    | @alloc page pmm halloc hne =>
      have htook := took_of_pmmAllocPage hspaces.ready.region halloc hne
      have hinRegion := htook.free.inRegion
      have hbase := hspaces.ready.region.base_ge
      intro other hother
      rcases List.mem_cons.mp hother with rfl | hother
      · omega
      · exact hinv.held other hother
    | free => exact fun other hother ↦ hinv.held other (List.mem_of_mem_erase hother)

/-- In every run the quiet addresses are as `vmm_init` found them. Assumes: the region lies below
2^48, the directories of the first loop come zeroed, and the quiet addresses lie below 2 MiB, in
pages that are no tables and not in the pool. -/
theorem quiet_run (hmapped : KernelMapped kernelPml4 boot.2 boot.1 boot.2)
    (hbound : boot.2.pmm.pmmBase.toNat + boot.2.pmm.pmmTotalPages.toNat * 4096 ≤ 2 ^ 48)
    (hclean : CleanWindow kernelPml4 boot)
    (hlow : ∀ address, quiet address → address.toNat < 0x200000)
    (hquiet : Untouched quiet boot.1 (fun root ↦ root = kernelPml4) boot.1 boot.2)
    (hrun : (quietSystem kernelPml4 boot quiet).Run events s) :
    QuietInvariant kernelPml4 boot quiet s := by
  refine hrun.invariant (motive := QuietInvariant kernelPml4 boot quiet) ?_
    fun _ _ _ hinv hstep ↦ hinv.step hlow hstep
  rintro ⟨memory, supply, processes, held⟩ ⟨⟨hinit, rfl, rfl⟩, htables⟩
  refine ⟨directMapped_of_vmmInit hmapped hbound hclean hinit, htables, ?_, by simp⟩
  have hroot : SpaceState.Root kernelPml4 ⟨memory, supply, [], []⟩ =
      fun root ↦ root = kernelPml4 := by
    funext root
    simp [SpaceState.Root]
  rw [hroot]
  exact hquiet.vmmInit hmapped hbound hclean hinit

/-- The kernel reads at a quiet address what stood there before `vmm_init`. -/
theorem QuietInvariant.readByte (hinv : QuietInvariant kernelPml4 boot quiet s)
    (hlow : ∀ address, quiet address → address.toNat < 0x200000) (haddress : quiet address) :
    Elf.readByte kernelPml4 s.memory address = some (boot.1 address.toNat) := by
  have hpage := toNat_pageOf address
  have hbelow := hlow address haddress
  have hmap := hinv.own hbelow
  rw [← virtualPage_pageOf] at hmap
  rw [Elf.readByte, translate_of_self (pageAligned_pageOf address) (by omega) hmap
    (inPage_pageOf address), Option.map_some, hinv.untouched.bytes address haddress]

/-- A load of a file that is linked apart from the direct pages leaves the quiet addresses alone. -/
theorem QuietInvariant.readByte_load (hinv : QuietInvariant kernelPml4 boot quiet s)
    (hlow : ∀ address, quiet address → address.toNat < 0x200000) {memory : Memory}
    {supply : TableSupply}
    (hload : Loading kernelPml4 boot (Direct boot.2.pmm) s memory supply)
    (haddress : quiet address) :
    Elf.readByte kernelPml4 memory address = some (boot.1 address.toNat) := by
  have hpage := toNat_pageOf address
  have hbelow := hlow address haddress
  have hmap := hload.kept (pageOf address) (direct_pageOf hbelow) (pageOf address)
    (hinv.space.mapped kernelPml4 _ (Or.inl rfl) (direct_pageOf hbelow))
  have hbytes : memory address.toNat = s.memory address.toNat := by
    refine hload.bytes _ (fun page hloaded ↦ ?_) fun table htable ↦ ?_
    · refine not_inPage_of_ne (hinv.space.spaces.ready.region.pageAligned hloaded.free)
        (pageAligned_pageOf address) ?_ (inPage_pageOf address)
      rintro rfl
      exact hinv.untouched.taken address haddress (Or.inr hloaded.free)
    · refine not_inPage_of_ne (hload.spaces.pageAligned (Or.inl rfl) htable)
        (pageAligned_pageOf address) ?_ (inPage_pageOf address)
      rintro rfl
      rcases hload.tables kernelPml4 _ (Or.inl rfl) htable with hold | havailable
      · exact hinv.untouched.unused address haddress kernelPml4 (Or.inl rfl) hold
      · exact hinv.untouched.taken address haddress havailable
  rw [Elf.readByte, translate_of_self (pageAligned_pageOf address) (by omega) hmap
    (inPage_pageOf address), Option.map_some, hbytes, hinv.untouched.bytes address haddress]

/-- Where the load makes no page table at an address of the heap, the tables are in place after
it. -/
theorem QuietInvariant.tablesInPlace_load (hinv : QuietInvariant kernelPml4 boot quiet s)
    {memory : Memory} {supply : TableSupply}
    (hload : Loading kernelPml4 boot (Direct boot.2.pmm) s memory supply) {held : List Word}
    (htables : TablesDirect kernelPml4 (Direct boot.2.pmm) ⟨memory, supply, s.processes, held⟩) :
    TablesInPlace kernelPml4 ⟨memory, supply, s.processes, held⟩ := by
  obtain ⟨loadEvents, heldAfter, hpath⟩ := hload.path
  have hmapped : DirectMapped kernelPml4 (Direct boot.2.pmm)
      ⟨memory, supply, s.processes, heldAfter⟩ := by
    refine hpath.preserves ?_ hinv.space
    rintro state event next hstate ⟨⟨hclean, havoids⟩, hstep⟩
    exact hstate.step hclean havoids hstep
  exact hmapped.tablesInPlace htables

end Run

end Colix.Proc
