import Colix.Mm.VmmInitPool
import Colix.Proc.Lifecycle

/-!
# The address space of a new process

The memory part of `proc_create_elf`: a page for the PML4, into which the kernel's PML4 is copied, a
page for the user stack, mapped at the top of user memory, and a page for the kernel stack. Stores
through `KERNEL_BASE + pa` are stores to `pa`.

`elfCreated` says what a call that returns does (`ElfCreated`). The user stack is not checked
for NULL; the call does not return when there was no page for it, because there is none for the
kernel stack then.
-/

set_option autoImplicit false
set_option relaxedAutoImplicit false

namespace Colix.Proc

open Foundation Mm

/-! ### The source -/

/-- The address at which `proc_create_elf` maps the one page of the user stack. -/
abbrev userStackPage : Word := userStackTop - 0x1000#64

/-- `proc_create_elf` up to the copy of the kernel's PML4. `none` is its panic. -/
def createPml4 (kernelPml4 : Word) (memory : Memory) (supply : TableSupply) :
    Option (Word × Memory × TableSupply) :=
  match pmmAllocPage supply.pmm with
  | (newPml4Pa, pmm) =>
    if newPml4Pa = 0#64 then none
    else
      let memory := fillBytes memory newPml4Pa.toNat 0#8 4096
      let memory := copyBytes memory newPml4Pa.toNat kernelPml4.toNat 4096
      some (newPml4Pa, memory, { supply with pmm := pmm })

/-- `alloc_kernel_stack_for_proc`, less the size of the page. `none` is its panic. -/
def allocKernelStackForProc (supply : TableSupply) : Option (Word × TableSupply) :=
  match pmmAllocPage supply.pmm with
  | (stack, pmm) => if stack = 0#64 then none else some (stack, { supply with pmm := pmm })

/-- The memory part of `proc_create_elf`. `none` is a panic. -/
def createElfPages (kernelPml4 : Word) (memory : Memory) (supply : TableSupply) :
    Option (ElfPages × Memory × TableSupply) :=
  match createPml4 kernelPml4 memory supply with
  | none => none
  | some (newPml4Pa, memory, supply) =>
    match pmmAllocPage supply.pmm with
    | (pa, pmm) =>
      match vmmMap allocTable newPml4Pa userStackPage pa 0x7#64 memory
        { supply with pmm := pmm } with
      | none => none
      | some (memory, supply) =>
        match allocKernelStackForProc supply with
        | none => none
        | some (kernelStack, supply) => some (⟨newPml4Pa, kernelStack⟩, memory, supply)

/-- The directories that the map of the user stack makes come zeroed. -/
def CleanCreate (kernelPml4 : Word) (memory : Memory) (supply : TableSupply) : Prop :=
  ∀ newPml4Pa middle supplyMiddle,
    createPml4 kernelPml4 memory supply = some (newPml4Pa, middle, supplyMiddle) →
      CleanDirectories middle { supplyMiddle with pmm := (pmmAllocPage supplyMiddle.pmm).2 }
        newPml4Pa userStackPage

/-! ### What creation does -/

/-- A page that was free and cannot be handed out any more. -/
structure Taken (supply : TableSupply) (page : Word) (supplyNext : TableSupply) : Prop where
  free : FreePage supply.pmm page
  held : ¬ Available supplyNext page

/-- What a call of `proc_create_elf` that returns does to the address spaces. -/
structure ElfCreated (roots : Word → Prop) (kernelPml4 : Word) (memory : Memory)
    (supply : TableSupply) (pages : ElfPages) (userStack : Word) (next : Memory)
    (supplyNext : TableSupply) : Prop where
  spaces : Spaces (fun root ↦ root = pages.newPml4Pa ∨ roots root) next supplyNext
  source : SameSource supply supplyNext
  available : ∀ page, Available supplyNext page → Available supply page
  pml4_taken : Taken supply pages.newPml4Pa supplyNext
  userStack_taken : Taken supply userStack supplyNext
  kernelStack_taken : Taken supply pages.kernelStack supplyNext
  distinct : [pages.newPml4Pa, userStack, pages.kernelStack].Nodup
  stack : pageMap next pages.newPml4Pa (virtualPage userStackPage) = some userStack
  kept : ∀ other, roots other → ∀ page, page ≠ virtualPage userStackPage → ∀ phys,
    pageMap memory other page = some phys → pageMap next other page = some phys
  isolated : tableAt memory kernelPml4 [pml4Idx userStackPage] = none → ∀ other, roots other →
    pageMap next other = pageMap memory other
  copied : ∀ index table, tableAt memory kernelPml4 [index] = some table →
    tableAt next pages.newPml4Pa [index] = some table
  shares : ∀ other index, roots other → SharesSlot next pages.newPml4Pa other index →
    ∃ table, tableAt memory kernelPml4 [index] = some table
  slot : ∀ other, roots other → ∀ index, tableAt next other [index] = tableAt memory other [index]
  tables : ∀ other table, other = pages.newPml4Pa ∨ roots other → TableOf next other table →
    Available supply table ∨ ∃ owner, roots owner ∧ TableOf memory owner table

/-- What the copy of the kernel's PML4 does to the address spaces. -/
structure Pml4Created (roots : Word → Prop) (kernelPml4 : Word) (memory : Memory)
    (supply : TableSupply) (newPml4Pa : Word) (middle : Memory) (supplyMiddle : TableSupply) :
    Prop where
  spaces : Spaces (fun root ↦ root = newPml4Pa ∨ roots root) middle supplyMiddle
  rest : ∀ page, Available supplyMiddle page → Available supply page ∧ page ≠ newPml4Pa
  source : SameSource supply supplyMiddle
  free : FreePage supply.pmm newPml4Pa
  copied : ∀ index, entry middle newPml4Pa index = entry memory kernelPml4 index
  same : ∀ other, roots other → ∀ path : List TableIndex, path.length ≤ 4 →
    tableAt middle other path = tableAt memory other path
  tables : ∀ other table, other = newPml4Pa ∨ roots other → TableOf middle other table →
    table = newPml4Pa ∨ ∃ owner, roots owner ∧ TableOf memory owner table

section Create

variable {roots : Word → Prop} {memory next middle : Memory}
  {supply supplyNext supplyMiddle : TableSupply} {kernelPml4 newPml4Pa : Word} {pages : ElfPages}

/-- The entries of the new PML4 are those of the kernel's. -/
theorem entry_copyPml4 (hkernel : PageAligned kernelPml4) (hnew : PageAligned newPml4Pa)
    (hne : newPml4Pa ≠ kernelPml4) (index : TableIndex) :
    entry (copyBytes (fillBytes memory newPml4Pa.toNat 0#8 4096) newPml4Pa.toNat kernelPml4.toNat
      4096) newPml4Pa index = entry memory kernelPml4 index := by
  have hindex := index.isLt
  have hpages : newPml4Pa.toNat ≠ kernelPml4.toNat := fun heq ↦ hne (BitVec.eq_of_toNat_eq heq)
  have hkernelMod : kernelPml4.toNat % 4096 = 0 := hkernel
  have hnewMod : newPml4Pa.toNat % 4096 = 0 := hnew
  rw [entry, entry, entryAddress_eq hnew, entryAddress_eq hkernel,
    load_copyBytes (by omega) (by omega), load_fillBytes_of_disjoint (by omega)]

/-- The new PML4 joins the address spaces, as a copy of the kernel's. -/
theorem pml4Created (hspaces : Spaces roots memory supply) (hkernel : roots kernelPml4)
    (hcreate : createPml4 kernelPml4 memory supply = some (newPml4Pa, middle, supplyMiddle)) :
    Pml4Created roots kernelPml4 memory supply newPml4Pa middle supplyMiddle := by
  rw [createPml4, pmmAllocPage] at hcreate
  rcases hspaces.ready.region.pmmAlloc_cases with ⟨hnull, -⟩ | ⟨page, pmm, halloc, hne, htook⟩
  · simp only [hnull, ↓reduceIte] at hcreate
    cases hcreate
  · simp only [halloc, if_neg hne, Option.some.injEq, Prod.mk.injEq] at hcreate
    obtain ⟨rfl, rfl, rfl⟩ := hcreate
    have hsupply := htook.supply hspaces.ready
    have haligned := hspaces.ready.pageAligned hsupply.available
    have hkernelNe : page ≠ kernelPml4 := by
      rintro rfl
      exact hspaces.used page page hkernel ⟨[], Nat.zero_le _, rfl⟩ hsupply.available
    have hcopied (index : TableIndex) :
        entry (copyBytes (fillBytes memory page.toNat 0#8 4096) page.toNat kernelPml4.toNat 4096)
          page index = entry memory kernelPml4 index :=
      entry_copyPml4 (hspaces.aligned kernelPml4 hkernel) haligned hkernelNe index
    obtain ⟨hnext, hsame, htables⟩ := hspaces.insert_copy hkernel hsupply.ready hsupply.available
      hsupply.rest (fun index table hslot ↦ by rwa [hcopied index] at hslot)
      (fun position houtside ↦ by
        rw [InPage] at houtside
        rw [copyBytes_apply_of_disjoint (by omega), fillBytes_apply_of_disjoint (by omega)])
    exact ⟨hnext, hsupply.rest, ⟨rfl, htook.base_eq, htook.total_eq⟩, htook.free,
      hcopied, hsame, htables⟩

/-- A page of the region that can be handed out is free. -/
theorem free_of_available {page : Word} (hready : SupplyReady supply)
    (hpage : Available supply page) (hge : 0x200000 ≤ page.toNat) : FreePage supply.pmm page := by
  rcases hpage.low_or_free hready with hlow | hfree
  · omega
  · exact hfree

/-- The three pages that the creation takes were free, are not handed out again, and are
distinct. -/
theorem Pml4Created.pages_taken {userStack kernelStack : Word} {stackPmm kernelPmm : Pmm}
    {supplyMapped : TableSupply}
    (hcreated : Pml4Created roots kernelPml4 memory supply newPml4Pa middle supplyMiddle)
    (hready : SupplyReady supply) (hstack : Took supplyMiddle.pmm userStack stackPmm)
    (hmapped : SupplyReady supplyMapped)
    (havailable : ∀ page, Available supplyMapped page →
      Available { supplyMiddle with pmm := stackPmm } page)
    (hkernel : Took supplyMapped.pmm kernelStack kernelPmm) :
    (∀ page, Available { supplyMapped with pmm := kernelPmm } page → Available supply page) ∧
      Taken supply newPml4Pa { supplyMapped with pmm := kernelPmm } ∧
      Taken supply userStack { supplyMapped with pmm := kernelPmm } ∧
      Taken supply kernelStack { supplyMapped with pmm := kernelPmm } ∧
      [newPml4Pa, userStack, kernelStack].Nodup := by
  have hmiddle := hcreated.spaces.ready
  have hkernelSupply := hkernel.supply hmapped
  have hbefore : ∀ page, Available supplyMapped page →
      Available supply page ∧ page ≠ newPml4Pa ∧ page ≠ userStack := by
    intro page hpage
    obtain ⟨hleft, hneStack⟩ := (hstack.supply hmiddle).rest page (havailable page hpage)
    obtain ⟨hstart, hnePml4⟩ := hcreated.rest page hleft
    exact ⟨hstart, hnePml4, hneStack⟩
  have hregion : ∀ page, FreePage supplyMiddle.pmm page ∨ FreePage supplyMapped.pmm page →
      0x200000 ≤ page.toNat := by
    rintro page (hfree | hfree)
    · have hle := hmiddle.region.base_ge
      have hin := hfree.inRegion
      omega
    · have hle := hmapped.region.base_ge
      have hin := hfree.inRegion
      omega
  obtain ⟨hkernelStart, hkernelPml4, hkernelStack⟩ := hbefore kernelStack (Or.inr hkernel.free)
  obtain ⟨hstackStart, hstackPml4⟩ := hcreated.rest userStack (Or.inr hstack.free)
  refine ⟨fun page hpage ↦ ?_, ⟨hcreated.free, fun hpage ↦ ?_⟩, ⟨?_, fun hpage ↦ ?_⟩,
    ⟨?_, fun hpage ↦ ?_⟩, ?_⟩
  · exact (hbefore page (hkernelSupply.rest page hpage).1).1
  · exact (hbefore newPml4Pa (hkernelSupply.rest newPml4Pa hpage).1).2.1 rfl
  · exact free_of_available hready hstackStart (hregion userStack (Or.inl hstack.free))
  · exact (hbefore userStack (hkernelSupply.rest userStack hpage).1).2.2 rfl
  · exact free_of_available hready hkernelStart (hregion kernelStack (Or.inr hkernel.free))
  · exact (hkernelSupply.rest kernelStack hpage).2 rfl
  · simp only [List.nodup_cons, List.mem_cons, List.not_mem_nil, or_false, not_or,
      not_false_eq_true, List.nodup_nil, and_true]
    exact ⟨⟨hstackPml4.symm, hkernelPml4.symm⟩, hkernelStack.symm⟩

/-- Taking a page for the user stack, mapping it, and taking a page for the kernel stack complete
the creation. -/
theorem Pml4Created.elfCreated {userStack kernelStack : Word} {stackPmm kernelPmm : Pmm}
    {supplyMapped : TableSupply}
    (hcreated : Pml4Created roots kernelPml4 memory supply newPml4Pa middle supplyMiddle)
    (hspaces : Spaces roots memory supply)
    (hstack : Took supplyMiddle.pmm userStack stackPmm)
    (hupdate : SpaceUpdate (fun root ↦ root = newPml4Pa ∨ roots root) newPml4Pa userStackPage
      (childOf ((userStack &&& pteAddrMask) ||| (0x7#64 ||| ptePresent))) middle
      { supplyMiddle with pmm := stackPmm } next supplyMapped)
    (hkernel : Took supplyMapped.pmm kernelStack kernelPmm) :
    ElfCreated roots kernelPml4 memory supply ⟨newPml4Pa, kernelStack⟩ userStack next
      { supplyMapped with pmm := kernelPmm } := by
  have hmiddleReady := hcreated.spaces.ready
  obtain ⟨hstillAvailable, hpml4Taken, hstackTaken, hkernelTaken, hdistinct⟩ :=
    hcreated.pages_taken hspaces.ready hstack hupdate.spaces.ready hupdate.available hkernel
  have hnew : ∀ root, roots root → root ≠ newPml4Pa := by
    rintro root hroot rfl
    exact hspaces.used root root hroot ⟨[], Nat.zero_le _, rfl⟩ (Or.inr hcreated.free)
  have hpages : ∀ other, roots other → pageMap middle other = pageMap memory other := by
    intro other hother
    funext page
    exact hcreated.same other hother (indicesOf page) (le_refl 4)
  refine ⟨hupdate.spaces.take hkernel, ?_, hstillAvailable, hpml4Taken, hstackTaken, hkernelTaken,
    hdistinct, ?_, ?_, ?_, ?_, ?_, ?_, ?_⟩
  · exact ⟨hupdate.source.pool_eq.trans hcreated.source.pool_eq,
      hkernel.base_eq.trans (hupdate.source.base_eq.trans
        (hstack.base_eq.trans hcreated.source.base_eq)),
      hkernel.total_eq.trans (hupdate.source.total_eq.trans
        (hstack.total_eq.trans hcreated.source.total_eq))⟩
  · have hself := hupdate.self
    have hbound := hstack.free.inRegion
    have hfits := hmiddleReady.region.fits
    rw [childOf_pageEntry (by decide),
      ptePhys_of_pageAligned (hmiddleReady.region.pageAligned hstack.free) (by omega)] at hself
    exact hself
  · intro other hother page hne phys hphys
    refine hupdate.kept other (Or.inr hother) page hne phys ?_
    rw [hpages other hother]
    exact hphys
  · intro hnone other hother
    rw [hupdate.isolated other (Or.inr hother) (hnew other hother), hpages other hother]
    rintro ⟨table, htable, -⟩
    rw [hcreated.copied, ← tableAt_singleton, hnone] at htable
    cases htable
  · intro index table htable
    refine hupdate.keptTables newPml4Pa (Or.inl rfl) [index] (by simp) table ?_
    rw [tableAt_singleton, hcreated.copied, ← tableAt_singleton, htable]
  · intro other index hother hshares
    obtain ⟨table, htable, -⟩ := (hcreated.spaces.take hstack).sharesSlot_of_next (Or.inl rfl)
      (Or.inr hother) (hupdate.slot other (Or.inr hother) (hnew other hother) index)
      (fun table ↦ hupdate.tables newPml4Pa table (Or.inl rfl)) hshares
    rw [hcreated.copied, ← tableAt_singleton] at htable
    exact ⟨table, htable⟩
  · intro other hother index
    rw [hupdate.slot other (Or.inr hother) (hnew other hother),
      hcreated.same other hother [index] (by simp)]
  · intro other table hother htable
    rcases hupdate.tables other table hother htable with hold | hpage
    · rcases hcreated.tables other table hother hold with rfl | howner
      · exact Or.inl (Or.inr hcreated.free)
      · exact Or.inr howner
    · exact Or.inl (hcreated.rest table ((hstack.supply hmiddleReady).rest table hpage).1).1

/-- A page allocator with no free page has none after tables were made. -/
theorem pmmAlloc_of_exhausted (hready : SupplyReady supply)
    (hall : ∀ page, ¬ FreePage supply.pmm page)
    (havailable : ∀ page, Available supplyNext page → Available supply page)
    (hnext : SupplyReady supplyNext) : (pmmAlloc supplyNext.pmm).1 = 0#64 := by
  rcases hnext.region.pmmAlloc_cases with ⟨hfail, -⟩ | ⟨page, _, -, -, htook⟩
  · rw [hfail]
  · have hregion := htook.free.inRegion
    have hbase := hnext.region.base_ge
    have hpage := havailable page (Or.inr htook.free)
    exact absurd (free_of_available hready hpage (by omega)) (hall page)

/-- The calls that `proc_create_elf` makes when it returns: a page for the PML4, a page for the user
stack and its map, a page for the kernel stack. -/
structure ElfCalls (kernelPml4 : Word) (memory : Memory) (supply : TableSupply) (pages : ElfPages)
    (userStack : Word) (middle : Memory) (supplyMiddle : TableSupply) (stackPmm : Pmm)
    (next : Memory) (supplyMapped supplyNext : TableSupply) : Prop where
  pml4 : createPml4 kernelPml4 memory supply = some (pages.newPml4Pa, middle, supplyMiddle)
  stack : Took supplyMiddle.pmm userStack stackPmm
  allocated : pmmAllocPage supplyMiddle.pmm = (userStack, stackPmm)
  map : vmmMap allocTable pages.newPml4Pa userStackPage userStack 0x7#64 middle
    { supplyMiddle with pmm := stackPmm } = some (next, supplyMapped)
  kernel : ∃ pmm, Took supplyMapped.pmm pages.kernelStack pmm ∧
    supplyNext = { supplyMapped with pmm := pmm }

/-- A call of `proc_create_elf` that returns makes them all. Assumes: the directories that the map
of the user stack makes come zeroed. -/
theorem exists_elfCalls (hspaces : Spaces roots memory supply) (hkernel : roots kernelPml4)
    (hclean : CleanCreate kernelPml4 memory supply)
    (hcreate : createElfPages kernelPml4 memory supply = some (pages, next, supplyNext)) :
    ∃ userStack middle supplyMiddle stackPmm supplyMapped, ElfCalls kernelPml4 memory supply pages
      userStack middle supplyMiddle stackPmm next supplyMapped supplyNext := by
  rw [createElfPages] at hcreate
  cases hpml4 : createPml4 kernelPml4 memory supply with
  | none =>
    rw [hpml4] at hcreate
    cases hcreate
  | some created =>
    obtain ⟨newPml4Pa, middle, supplyMiddle⟩ := created
    have hcleanMap := hclean newPml4Pa middle supplyMiddle hpml4
    have hmiddle := pml4Created hspaces hkernel hpml4
    rw [pmmAllocPage] at hcleanMap
    simp only [hpml4, pmmAllocPage] at hcreate
    cases hmap : vmmMap allocTable newPml4Pa userStackPage (pmmAlloc supplyMiddle.pmm).1 0x7#64
        middle { supplyMiddle with pmm := (pmmAlloc supplyMiddle.pmm).2 } with
    | none =>
      rw [hmap] at hcreate
      cases hcreate
    | some mapped =>
      obtain ⟨mappedMemory, supplyMapped⟩ := mapped
      rw [hmap] at hcreate
      rcases hmiddle.spaces.ready.region.pmmAlloc_cases with
        ⟨hnull, hall⟩ | ⟨userStack, pmm, halloc, -, hstackTook⟩
      · -- no page for the user stack: there is none for the kernel stack either
        rw [hnull] at hmap hcleanMap
        have hupdate := hmiddle.spaces.map (Or.inl rfl) hcleanMap hmap
        have hexhausted := pmmAlloc_of_exhausted hmiddle.spaces.ready hall
          hupdate.available hupdate.spaces.ready
        simp only [allocKernelStackForProc, pmmAllocPage, hexhausted, ↓reduceIte] at hcreate
        cases hcreate
      · rw [halloc] at hmap hcleanMap
        have hupdate := (hmiddle.spaces.take hstackTook).map (Or.inl rfl) hcleanMap hmap
        simp only [allocKernelStackForProc, pmmAllocPage] at hcreate
        rcases hupdate.spaces.ready.region.pmmAlloc_cases with
          ⟨hfail, -⟩ | ⟨kernelStack, last, hkernelAlloc, hne, hkernelTook⟩
        · simp only [hfail, ↓reduceIte] at hcreate
          cases hcreate
        · simp only [hkernelAlloc, if_neg hne, Option.some.injEq, Prod.mk.injEq] at hcreate
          obtain ⟨rfl, rfl, rfl⟩ := hcreate
          exact ⟨userStack, middle, supplyMiddle, pmm, supplyMapped, hpml4, hstackTook,
            halloc, hmap,
            last, hkernelTook, rfl⟩

/-- What its calls do. Assumes: the directories that the map of the user stack makes come zeroed. -/
theorem ElfCalls.elfCreated {userStack : Word} {stackPmm : Pmm} {supplyMapped : TableSupply}
    (hcalls : ElfCalls kernelPml4 memory supply pages userStack middle supplyMiddle stackPmm next
      supplyMapped supplyNext) (hspaces : Spaces roots memory supply) (hkernel : roots kernelPml4)
    (hclean : CleanCreate kernelPml4 memory supply) :
    ElfCreated roots kernelPml4 memory supply pages userStack next supplyNext := by
  have hmiddle := pml4Created hspaces hkernel hcalls.pml4
  have hcleanMap := hclean _ _ _ hcalls.pml4
  rw [hcalls.allocated] at hcleanMap
  have hupdate := (hmiddle.spaces.take hcalls.stack).map (Or.inl rfl) hcleanMap hcalls.map
  obtain ⟨kernelPmm, hkernelTook, rfl⟩ := hcalls.kernel
  exact hmiddle.elfCreated hspaces hcalls.stack hupdate hkernelTook

/-- What a call of `proc_create_elf` that returns does. Assumes: the directories that the map of the
user stack makes come zeroed. -/
theorem elfCreated (hspaces : Spaces roots memory supply) (hkernel : roots kernelPml4)
    (hclean : CleanCreate kernelPml4 memory supply)
    (hcreate : createElfPages kernelPml4 memory supply = some (pages, next, supplyNext)) :
    ∃ userStack, ElfCreated roots kernelPml4 memory supply pages userStack next supplyNext := by
  obtain ⟨userStack, middle, supplyMiddle, stackPmm, supplyMapped, hcalls⟩ :=
    exists_elfCalls hspaces hkernel hclean hcreate
  exact ⟨userStack, hcalls.elfCreated hspaces hkernel hclean⟩

/-- A mapped virtual page has a table in its slot of the PML4. -/
theorem exists_slot_of_pageMap {root virt page : Word}
    (hpage : pageMap memory root (virtualPage virt) = some page) :
    ∃ table, tableAt memory root [pml4Idx virt] = some table := by
  rw [pageMap, ← pagePath_eq_indicesOf, pagePath_eq] at hpage
  obtain ⟨pt, hpt, -⟩ := exists_descend_of_snoc
    (show tableAt memory root (tablePath virt ++ [ptIdx virt]) = some page from hpage)
  obtain ⟨pd, hpd, -⟩ := exists_descend_of_snoc
    (show tableAt memory root ([pml4Idx virt, pdpIdx virt] ++ [pdIdx virt]) = some pt from hpt)
  obtain ⟨pdp, hpdp, -⟩ := exists_descend_of_snoc
    (show tableAt memory root ([pml4Idx virt] ++ [pdpIdx virt]) = some pd from hpd)
  exact ⟨pdp, hpdp⟩

/-- A new process has what the kernel has at every other page than that of its stack. -/
theorem ElfCreated.kernelPage {userStack virt page : Word}
    (hcreated : ElfCreated roots kernelPml4 memory supply pages userStack next supplyNext)
    (hkernel : roots kernelPml4) (hne : virtualPage virt ≠ virtualPage userStackPage)
    (hpage : pageMap memory kernelPml4 (virtualPage virt) = some page) :
    pageMap next pages.newPml4Pa (virtualPage virt) = some page := by
  obtain ⟨table, htable⟩ := exists_slot_of_pageMap hpage
  have hnew := hcreated.copied (pml4Idx virt) table htable
  have hold := (hcreated.slot kernelPml4 hkernel (pml4Idx virt)).trans htable
  rw [tableAt_singleton] at hnew hold
  have hshared : Foundation.Shared childOf (entry next) pages.newPml4Pa kernelPml4
      (pagePath virt) := ⟨table, hnew, hold⟩
  rw [← hcreated.kept kernelPml4 hkernel _ hne page hpage, pageMap, pageMap,
    ← pagePath_eq_indicesOf]
  exact descend_shared hshared

end Create

/-! ### Creation from the pool -/

/-- `proc_create_elf` returns, and takes the next three pages of the region, when these are free and
the pool has three pages left. -/
theorem createElfPages_pool {start : Pmm} {count : ℕ} {supply : TableSupply} (kernelPml4 : Word)
    (memory : Memory) (hready : SupplyReady supply) (htaken : PagesTaken start count supply.pmm)
    (hcount : count + 3 ≤ supply.pmm.pmmTotalPages.toNat)
    (hpool : supply.ptPoolUsed.toNat + 3 * 4096 ≤ 262144) :
    CleanCreate kernelPml4 memory supply ∧ ∃ pages next supplyNext,
      createElfPages kernelPml4 memory supply = some (pages, next, supplyNext) ∧
        SupplyReady supplyNext ∧ PagesTaken start (count + 3) supplyNext.pmm ∧
          supplyNext.ptPoolUsed.toNat ≤ supply.ptPoolUsed.toNat + 3 * 4096 := by
  have hbase := hready.region.base_ge
  have hne : ∀ {pmm pmmNext : Pmm} {page : Word}, RegionReady pmm → Took pmm page pmmNext →
      page ≠ 0#64 := by
    rintro pmm pmmNext _ hregion htook rfl
    have hin := htook.free.inRegion
    have hge := hregion.base_ge
    rw [BitVec.toNat_ofNat, Nat.zero_mod] at hin
    omega
  obtain ⟨pml4Pmm, hpml4, hpml4Taken, hpml4Took⟩ := htaken.pmmAlloc (by omega)
  have hpml4Supply := hpml4Took.supply hready
  have htotal := hpml4Taken.total_eq.trans htaken.total_eq.symm
  obtain ⟨stackPmm, hstack, hstackTaken, hstackTook⟩ := hpml4Taken.pmmAlloc (by rw [htotal]; omega)
  have hstackSupply := hstackTook.supply hpml4Supply.ready
  have hcreate : createPml4 kernelPml4 memory supply = some (pageFrom supply.pmm.pmmBase count,
      copyBytes (fillBytes memory (pageFrom supply.pmm.pmmBase count).toNat 0#8 4096)
        (pageFrom supply.pmm.pmmBase count).toNat kernelPml4.toNat 4096,
      { supply with pmm := pml4Pmm }) := by
    simp only [createPml4, pmmAllocPage, hpml4, if_neg (hne htaken.ready hpml4Took)]
  refine ⟨?_, ?_⟩
  · intro newPml4Pa middle supplyMiddle hsome
    rw [hcreate, Option.some.injEq, Prod.mk.injEq, Prod.mk.injEq] at hsome
    obtain ⟨rfl, rfl, rfl⟩ := hsome
    simp only [pmmAllocPage, hstack]
    have hdirectories : supply.ptPoolUsed.toNat + 2 * 4096 ≤ 262144 := by omega
    exact cleanDirectories_of_pool _ _ hstackSupply.ready hdirectories
  · obtain ⟨next, supplyMapped, hmap, hused⟩ := vmmMap_pool (pageFrom supply.pmm.pmmBase count)
      userStackPage (pageFrom pml4Pmm.pmmBase (count + 1)) 0x7#64
      (copyBytes (fillBytes memory (pageFrom supply.pmm.pmmBase count).toNat 0#8 4096)
        (pageFrom supply.pmm.pmmBase count).toNat kernelPml4.toNat 4096) hstackSupply.ready hpool
    have hmappedTaken : PagesTaken start (count + 1 + 1) supplyMapped.pmm := by
      rw [hused.pmm_eq]
      exact hstackTaken
    have htotalMapped : count + 1 + 1 < supplyMapped.pmm.pmmTotalPages.toNat := by
      rw [hmappedTaken.total_eq, ← htaken.total_eq]
      omega
    obtain ⟨last, hkernel, hkernelTaken, hkernelTook⟩ := hmappedTaken.pmmAlloc htotalMapped
    refine ⟨⟨pageFrom supply.pmm.pmmBase count, pageFrom supplyMapped.pmm.pmmBase (count + 1 + 1)⟩,
      next, { supplyMapped with pmm := last }, ?_, (hkernelTook.supply hused.ready).ready,
        hkernelTaken,
      hused.used_le⟩
    simp only [createElfPages, hcreate, pmmAllocPage, hstack, hmap, allocKernelStackForProc,
      hkernel, if_neg (hne hmappedTaken.ready hkernelTook)]

end Colix.Proc
