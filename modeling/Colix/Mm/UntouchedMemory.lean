import Colix.Mm.VmmInit

/-!
# Memory that the page tables leave alone

Some addresses are in pages that hold no page table and that no allocator hands out. `vmm_map` and
`vmm_unmap` write to tables only, and take tables only from what can be handed out, so the bytes at
such addresses stay (`Untouched`), through `vmm_init` and after it.
-/

set_option autoImplicit false
set_option relaxedAutoImplicit false

namespace Colix.Mm

open Foundation

/-- The quiet addresses hold the bytes that they held at the start, and their pages are no tables
and cannot be handed out. -/
structure Untouched (quiet : Word → Prop) (start : Memory) (roots : Word → Prop) (memory : Memory)
    (supply : TableSupply) : Prop where
  taken : ∀ address, quiet address → ¬ Available supply (pageOf address)
  unused : ∀ address, quiet address → ∀ root, roots root → ¬ TableOf memory root (pageOf address)
  bytes : ∀ address, quiet address → memory address.toNat = start address.toNat

/-- An address is in its page. -/
theorem inPage_pageOf (address : Word) : InPage (pageOf address) address.toNat := by
  rw [InPage, toNat_pageOf]
  omega

section Untouched

variable {quiet roots rootsNext : Word → Prop} {start memory next : Memory}
  {supply supplyNext : TableSupply} {root virt phys flags page : Word} {pmm : Pmm}

/-- No table of an address space has a quiet address. -/
theorem Untouched.not_inPage (hquiet : Untouched quiet start roots memory supply)
    (hspaces : Spaces roots memory supply) (hroot : roots root) {address table : Word}
    (haddress : quiet address) (htable : TableOf memory root table) :
    ¬ InPage table address.toNat := by
  refine not_inPage_of_ne (hspaces.pageAligned hroot htable) (pageAligned_pageOf address) ?_
    (inPage_pageOf address)
  intro hsame
  rw [← hsame] at htable
  exact hquiet.unused address haddress root hroot htable

/-- The tables are those there were and pages that could be handed out, and the bytes stay. -/
theorem Untouched.grown (hquiet : Untouched quiet start roots memory supply)
    (havailable : ∀ page, Available supplyNext page → Available supply page)
    (htables : ∀ root table, rootsNext root → TableOf next root table →
      Available supply table ∨ ∃ owner, roots owner ∧ TableOf memory owner table)
    (hbytes : ∀ address, quiet address → next address.toNat = memory address.toNat) :
    Untouched quiet start rootsNext next supplyNext := by
  constructor
  · intro address haddress hnext
    exact hquiet.taken address haddress (havailable _ hnext)
  · intro address haddress root hroot htable
    rcases htables root _ hroot htable with hnew | ⟨owner, howner, hold⟩
    · exact hquiet.taken address haddress hnew
    · exact hquiet.unused address haddress owner howner hold
  · intro address haddress
    rw [hbytes address haddress, hquiet.bytes address haddress]

/-- The tables after a map or an unmap, and the bytes outside of them. -/
theorem Untouched.update (hquiet : Untouched quiet start roots memory supply)
    {value : Option Word} (hroot : roots root)
    (hupdate : SpaceUpdate roots root virt value memory supply next supplyNext)
    (hframe : ∀ position, (∀ table, TableOf next root table → ¬ InPage table position) →
      next position = memory position) :
    Untouched quiet start roots next supplyNext := by
  have htables : ∀ other table, roots other → TableOf next other table →
      Available supply table ∨ ∃ owner, roots owner ∧ TableOf memory owner table := by
    intro other table hother htable
    rcases hupdate.tables other table hother htable with hold | hnew
    · exact Or.inr ⟨other, hother, hold⟩
    · exact Or.inl hnew
  refine hquiet.grown hupdate.available htables fun address haddress ↦ ?_
  apply hframe
  intro table htable
  refine not_inPage_of_ne (hupdate.spaces.pageAligned hroot htable) (pageAligned_pageOf address) ?_
    (inPage_pageOf address)
  rintro rfl
  rcases htables root _ hroot htable with hnew | ⟨owner, howner, hold⟩
  · exact hquiet.taken address haddress hnew
  · exact hquiet.unused address haddress owner howner hold

/-- `vmm_map` in one of the address spaces. -/
theorem Untouched.map (hquiet : Untouched quiet start roots memory supply)
    (hspaces : Spaces roots memory supply) (hroot : roots root)
    (hclean : CleanDirectories memory supply root virt)
    (hmap : vmmMap allocTable root virt phys flags memory supply = some (next, supplyNext)) :
    Untouched quiet start roots next supplyNext :=
  hquiet.update hroot (hspaces.map hroot hclean hmap) fun _ houtside ↦
    hspaces.map_frame hroot hclean hmap houtside

/-- `vmm_unmap` in one of the address spaces. -/
theorem Untouched.unmap (hquiet : Untouched quiet start roots memory supply)
    (hspaces : Spaces roots memory supply) (hroot : roots root) (virt : Word) :
    Untouched quiet start roots (vmmUnmap root virt memory) supply := by
  have hupdate := hspaces.unmap hroot virt
  refine hquiet.update hroot hupdate fun position houtside ↦ ?_
  rw [vmmUnmap_eq]
  cases hreach : tableAt memory root (tablePath virt) with
  | none => rfl
  | some pt =>
    have hpt : TableOf memory root pt := ⟨tablePath virt, le_refl 3, hreach⟩
    have hkept : TableOf (vmmUnmap root virt memory) root pt :=
      ⟨tablePath virt, le_refl 3, hupdate.keptTables root hroot _ (le_refl 3) pt hreach⟩
    exact setEntry_apply (hspaces.pageAligned hroot hpt) (houtside pt hkept)

/-- Taking a page from the page allocator. -/
theorem Untouched.take (hquiet : Untouched quiet start roots memory supply)
    (hready : SupplyReady supply) (htook : Took supply.pmm page pmm) :
    Untouched quiet start roots memory { supply with pmm := pmm } :=
  ⟨fun address haddress hnext ↦
    hquiet.taken address haddress ((htook.supply hready).rest _ hnext).1, hquiet.unused,
    hquiet.bytes⟩

end Untouched

/-! ### `vmm_init` -/

section Init

variable {quiet : Word → Prop} {kernelPml4 : Word} {start supplyNext : TableSupply}
  {memory next : Memory}

/-- What the maps of `vmm_init` and the page allocator keep, `vmm_init` keeps. -/
theorem KernelMapped.vmmInit_rule {motive : Memory → TableSupply → Prop}
    (hmapped : KernelMapped kernelPml4 start memory start)
    (hbound : start.pmm.pmmBase.toNat + start.pmm.pmmTotalPages.toNat * 4096 ≤ 2 ^ 48)
    (hclean : CleanWindow kernelPml4 (memory, start))
    (hmap : ∀ before supply virt phys after supplyAfter,
      Spaces (fun root ↦ root = kernelPml4) before supply →
        CleanDirectories before supply kernelPml4 virt →
          vmmMap allocTable kernelPml4 virt phys (ptePresent ||| pteWritable) before supply =
              some (after, supplyAfter) →
            motive before supply → motive after supplyAfter)
    (htake : ∀ before supply page pmm, SupplyReady supply → Took supply.pmm page pmm →
      motive before supply → motive before { supply with pmm := pmm })
    (hstart : motive memory start)
    (hinit : vmmInit kernelPml4 (memory, start) = some (next, supplyNext)) :
    motive next supplyNext := by
  have hbase := hmapped.spaces.ready.region.base_ge
  have hmod := hmapped.spaces.ready.region.base_mod
  rw [vmmInit, hmapped.spaces.ready.region.pageCount_eq, pageCount_heap,
    Option.bind_eq_some_iff] at hinit
  obtain ⟨⟨middle, supplyMiddle⟩, hwindow, hheap⟩ := hinit
  have hboth : KernelMapped kernelPml4 start middle supplyMiddle ∧ motive middle supplyMiddle := by
    refine countedLoop_rule (motive := fun (_ : ℕ) state ↦
      KernelMapped kernelPml4 start state.1 state.2 ∧ motive state.1 state.2)
      ⟨hmapped, hstart⟩ ?_ hwindow
    rintro i hi state after hstate ⟨hmapped, hmotive⟩ hbody
    have haddress : (pageFrom start.pmm.pmmBase i).toNat = start.pmm.pmmBase.toNat + i * 4096 :=
      toNat_pageFrom (by omega)
    have haligned : PageAligned (pageFrom start.pmm.pmmBase i) := by
      rw [PageAligned, haddress]
      omega
    have hcleanHere : CleanDirectories state.1 state.2 kernelPml4
        (pageFrom start.pmm.pmmBase i) := hclean i hi state hstate
    obtain ⟨hafter, -⟩ := hmapped.map hcleanHere (by omega) (by omega) haligned (by omega) hbody
    exact ⟨hafter, hmap _ _ _ _ _ _ hmapped.spaces hcleanHere hbody hmotive⟩
  have hlast : KernelMapped kernelPml4 start next supplyNext ∧ motive next supplyNext := by
    refine countedLoop_rule (motive := fun (_ : ℕ) state ↦
      KernelMapped kernelPml4 start state.1 state.2 ∧ motive state.1 state.2) hboth ?_ hheap
    rintro i hi ⟨before, supply⟩ after - ⟨hmapped, hmotive⟩ hbody
    have haddress := toNat_pageFrom_heap hi
    rw [bindHeapPage, pmmAllocPage] at hbody
    rcases hmapped.spaces.ready.region.pmmAlloc_cases with
      ⟨hnull, -⟩ | ⟨page, pmm, halloc, hne, htook⟩
    · simp only [hnull, ↓reduceIte] at hbody
      cases hbody
    · simp only [halloc, if_neg hne] at hbody
      have hpageAligned := hmapped.spaces.ready.region.pageAligned htook.free
      have hinRegion := htook.free.inRegion
      have hfits := hmapped.spaces.ready.region.fits
      obtain ⟨htaken, -⟩ := hmapped.take htook
      have hcleanHere := htaken.cleanDirectories (show (pageFrom kheapStart i).toNat < 2 ^ 30 by
        omega)
      obtain ⟨hafter, -⟩ := htaken.map hcleanHere (by omega) (by omega) hpageAligned (by omega)
        hbody
      exact ⟨hafter, hmap _ _ _ _ _ _ htaken.spaces hcleanHere hbody
        (htake _ _ _ _ hmapped.spaces.ready htook hmotive)⟩
  exact hlast.2

/-- The tables after `vmm_init` are those there were and pages that could be handed out. -/
theorem KernelMapped.tables_vmmInit (hmapped : KernelMapped kernelPml4 start memory start)
    (hbound : start.pmm.pmmBase.toNat + start.pmm.pmmTotalPages.toNat * 4096 ≤ 2 ^ 48)
    (hclean : CleanWindow kernelPml4 (memory, start))
    (hinit : Mm.vmmInit kernelPml4 (memory, start) = some (next, supplyNext)) :
    (∀ page, Available supplyNext page → Available start page) ∧
      ∀ table, TableOf next kernelPml4 table →
        TableOf memory kernelPml4 table ∨ Available start table := by
  refine hmapped.vmmInit_rule
    (motive := fun after supply ↦ (∀ page, Available supply page → Available start page) ∧
      ∀ table, TableOf after kernelPml4 table →
        TableOf memory kernelPml4 table ∨ Available start table)
    hbound hclean ?_ ?_ ⟨fun _ hpage ↦ hpage, fun _ ↦ Or.inl⟩ hinit
  · rintro before supply virt phys after supplyAfter hspaces hcleanHere hmap ⟨havailable, htables⟩
    have hupdate := hspaces.map rfl hcleanHere hmap
    refine ⟨fun page hpage ↦ havailable page (hupdate.available page hpage), fun table htable ↦ ?_⟩
    rcases hupdate.tables kernelPml4 table rfl htable with hold | hnew
    · exact htables table hold
    · exact Or.inr (havailable table hnew)
  · rintro before supply page pmm hready htook ⟨havailable, htables⟩
    exact ⟨fun other hother ↦ havailable other ((htook.supply hready).rest other hother).1, htables⟩

/-- `vmm_init` leaves the quiet addresses alone. -/
theorem Untouched.vmmInit
    (hquiet : Untouched quiet memory (fun root ↦ root = kernelPml4) memory start)
    (hmapped : KernelMapped kernelPml4 start memory start)
    (hbound : start.pmm.pmmBase.toNat + start.pmm.pmmTotalPages.toNat * 4096 ≤ 2 ^ 48)
    (hclean : CleanWindow kernelPml4 (memory, start))
    (hinit : Mm.vmmInit kernelPml4 (memory, start) = some (next, supplyNext)) :
    Untouched quiet memory (fun root ↦ root = kernelPml4) next supplyNext :=
  hmapped.vmmInit_rule
    (motive := Untouched quiet memory fun root ↦ root = kernelPml4) hbound hclean
    (fun _ _ _ _ _ _ hspaces hcleanHere hmap hbefore ↦ hbefore.map hspaces rfl hcleanHere hmap)
    (fun _ _ _ _ hready htook hbefore ↦ hbefore.take hready htook) hquiet hinit

end Init

end Colix.Mm
