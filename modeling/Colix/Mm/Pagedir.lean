import Colix.Mm.ZeroTables

/-!
# New page directories

`vmm_new_pagedir` of `kernel/mm/vmm.c`: a table from `alloc_table` with the upper half of the
kernel's PML4. `newPagedir_created` says that it joins the address spaces, without a mapping of its
own in the lower half, when the table comes with no entries there.
-/

set_option autoImplicit false
set_option relaxedAutoImplicit false

namespace Colix.Mm

open Foundation

/-! ### The source -/

/-- Entry `i` of the upper half of a PML4. -/
abbrev upperIndex (i : ℕ) : TableIndex := BitVec.ofNat 9 (256 + i)

/-- The loop of `vmm_new_pagedir`, over its first `count` entries. -/
def copyUpperEntries (pml4 kernelPml4 : Word) (count : ℕ) (memory : Memory) : Memory :=
  (List.range count).foldl
    (fun memory i ↦
      setEntry memory pml4 (upperIndex i) (entry memory kernelPml4 (upperIndex i))) memory

/-- The copy of the kernel's half, when there is a kernel PML4. -/
def copyKernelEntries (pml4 kernelPml4 : Word) (memory : Memory) : Memory :=
  if kernelPml4 ≠ 0#64 then copyUpperEntries pml4 kernelPml4 256 memory else memory

/-- `vmm_new_pagedir`. `none` is the panic of `alloc_table`. -/
def vmmNewPagedir (kernelPml4 : Word) (memory : Memory) (supply : TableSupply) :
    Option (Word × Memory × TableSupply) :=
  match allocTable memory supply with
  | none => none
  | some (pml4, memory, supply) => some (pml4, copyKernelEntries pml4 kernelPml4 memory, supply)

/-! ### The copy -/

section Copy

variable {memory : Memory} {pml4 kernelPml4 : Word}

/-- One more entry. -/
theorem copyUpperEntries_succ (pml4 kernelPml4 : Word) (count : ℕ) (memory : Memory) :
    copyUpperEntries pml4 kernelPml4 (count + 1) memory =
      setEntry (copyUpperEntries pml4 kernelPml4 count memory) pml4 (upperIndex count)
        (entry (copyUpperEntries pml4 kernelPml4 count memory) kernelPml4 (upperIndex count)) := by
  rw [copyUpperEntries, List.range_succ, List.foldl_append, List.foldl_cons, List.foldl_nil]
  rfl

/-- The loop touches the new PML4 only. -/
theorem copyUpperEntries_apply (haligned : PageAligned pml4) (count : ℕ) {position : ℕ}
    (houtside : ¬ InPage pml4 position) :
    copyUpperEntries pml4 kernelPml4 count memory position = memory position := by
  induction count with
  | zero => rfl
  | succ count ih => rw [copyUpperEntries_succ, setEntry_apply haligned houtside, ih]

/-- The loop copies the entries it has reached. -/
theorem entry_copyUpperEntries (haligned : PageAligned pml4) (hkernel : PageAligned kernelPml4)
    (hne : kernelPml4 ≠ pml4) {count : ℕ} (hcount : count ≤ 256) (index : TableIndex) :
    entry (copyUpperEntries pml4 kernelPml4 count memory) pml4 index =
      if 256 ≤ index.toNat ∧ index.toNat < 256 + count then entry memory kernelPml4 index
      else entry memory pml4 index := by
  induction count with
  | zero =>
    rw [if_neg (by omega)]
    rfl
  | succ count ih =>
    have hlast : (upperIndex count).toNat = 256 + count := by
      rw [BitVec.toNat_ofNat, Nat.mod_eq_of_lt (by omega)]
    have hsame : entry (copyUpperEntries pml4 kernelPml4 count memory) kernelPml4
        (upperIndex count) = entry memory kernelPml4 (upperIndex count) :=
      entry_congr hkernel (fun _ hposition ↦
        copyUpperEntries_apply haligned count (not_inPage_of_ne haligned hkernel hne hposition)) _
    rw [copyUpperEntries_succ, hsame]
    by_cases hindex : index = upperIndex count
    · rw [hindex, entry_setEntry_self, if_pos (by omega)]
    · have hnat : index.toNat ≠ 256 + count := fun heq ↦
        hindex (BitVec.eq_of_toNat_eq (heq.trans hlast.symm))
      rw [entry_setEntry_of_index_ne haligned hindex, ih (by omega)]
      exact if_congr (by omega) rfl rfl

theorem copyKernelEntries_apply (haligned : PageAligned pml4) {position : ℕ}
    (houtside : ¬ InPage pml4 position) :
    copyKernelEntries pml4 kernelPml4 memory position = memory position := by
  by_cases hnull : kernelPml4 ≠ 0#64
  · rw [copyKernelEntries, if_pos hnull, copyUpperEntries_apply haligned 256 houtside]
  · rw [copyKernelEntries, if_neg hnull]

/-- The entries after the copy: those of the page, or in the upper half the kernel's. -/
theorem entry_copyKernelEntries (haligned : PageAligned pml4) (hkernel : PageAligned kernelPml4)
    (hne : kernelPml4 ≠ pml4) (index : TableIndex) :
    (index.toNat < 256 ∨ kernelPml4 = 0#64) ∧
        entry (copyKernelEntries pml4 kernelPml4 memory) pml4 index = entry memory pml4 index ∨
      256 ≤ index.toNat ∧
        entry (copyKernelEntries pml4 kernelPml4 memory) pml4 index =
          entry memory kernelPml4 index := by
  by_cases hnull : kernelPml4 ≠ 0#64
  · have hcopied : entry (copyUpperEntries pml4 kernelPml4 256 memory) pml4 index =
        if 256 ≤ index.toNat ∧ index.toNat < 256 + 256 then entry memory kernelPml4 index
        else entry memory pml4 index :=
      entry_copyUpperEntries haligned hkernel hne (Nat.le_refl 256) index
    rw [copyKernelEntries, if_pos hnull, hcopied]
    by_cases hupper : 256 ≤ index.toNat ∧ index.toNat < 256 + 256
    · rw [if_pos hupper]
      exact Or.inr ⟨hupper.1, rfl⟩
    · have hindex := index.isLt
      rw [if_neg hupper]
      exact Or.inl ⟨Or.inl (by omega), rfl⟩
  · rw [copyKernelEntries, if_neg hnull]
    exact Or.inl ⟨Or.inr (not_not.mp hnull), rfl⟩

end Copy

/-! ### What it does -/

/-- The table that `vmm_new_pagedir` takes comes without entries where it copies none. -/
def CleanPml4 (kernelPml4 : Word) (memory : Memory) (supply : TableSupply) : Prop :=
  ∀ new zeroed next, allocTable memory supply = some (new, zeroed, next) →
    ∀ index : TableIndex, index.toNat < 256 ∨ kernelPml4 = 0#64 →
      childOf (entry zeroed new index) = none

/-- What a call of `vmm_new_pagedir` that returns does to the address spaces. -/
structure PagedirCreated (roots : Word → Prop) (memory : Memory) (supply : TableSupply)
    (pml4 : Word) (next : Memory) (supplyNext : TableSupply) : Prop where
  spaces : Spaces (fun root ↦ root = pml4 ∨ roots root) next supplyNext
  available : Available supply pml4
  rest : ∀ page, Available supplyNext page ↔ Available supply page ∧ page ≠ pml4
  source : SameSource supply supplyNext
  frame : ∀ position, ¬ InPage pml4 position → next position = memory position
  same : ∀ other, roots other → ∀ path : List TableIndex, path.length ≤ 4 →
    tableAt next other path = tableAt memory other path
  lower : ∀ index : TableIndex, index.toNat < 256 → childOf (entry next pml4 index) = none
  tables : ∀ other table, other = pml4 ∨ roots other → TableOf next other table →
    table = pml4 ∨ ∃ owner, roots owner ∧ TableOf memory owner table

section Created

variable {roots : Word → Prop} {memory next : Memory} {supply supplyNext : TableSupply}
  {kernelPml4 pml4 : Word}

/-- `vmm_new_pagedir` takes one table. -/
theorem vmmNewPagedir_alloc
    (hnew : vmmNewPagedir kernelPml4 memory supply = some (pml4, next, supplyNext)) :
    ∃ zeroed, allocTable memory supply = some (pml4, zeroed, supplyNext) ∧
      next = copyKernelEntries pml4 kernelPml4 zeroed := by
  unfold vmmNewPagedir at hnew
  split at hnew
  next => cases hnew
  next table zeroed supplyAfter halloc =>
    simp only [Option.some.injEq, Prod.mk.injEq] at hnew
    obtain ⟨rfl, rfl, rfl⟩ := hnew
    exact ⟨zeroed, halloc, rfl⟩

/-- A table that comes zeroed has no entries. -/
theorem cleanPml4_of_cleanTables (kernelPml4 : Word) (hready : SupplyReady supply)
    (hclean : CleanTables memory 1 supply) : CleanPml4 kernelPml4 memory supply :=
  fun new zeroed next halloc index _ ↦ childOf_entry_of_zeroPage
    (hready.allocTable halloc).aligned (hclean new zeroed next halloc).1 index

/-- The new page directory joins the address spaces. Assumes: its table comes without entries where
none are copied. -/
theorem newPagedir_created (hspaces : Spaces roots memory supply) (hkernel : roots kernelPml4)
    (hclean : CleanPml4 kernelPml4 memory supply)
    (hnew : vmmNewPagedir kernelPml4 memory supply = some (pml4, next, supplyNext)) :
    PagedirCreated roots memory supply pml4 next supplyNext := by
  obtain ⟨zeroed, halloc, rfl⟩ := vmmNewPagedir_alloc hnew
  have hempty := hclean pml4 zeroed supplyNext halloc
  have hallocated := hspaces.ready.allocTable halloc
  have haligned := hallocated.aligned
  have hkernelAligned := hspaces.aligned kernelPml4 hkernel
  have hne : kernelPml4 ≠ pml4 := by
    rintro rfl
    exact hspaces.used kernelPml4 kernelPml4 hkernel ⟨[], Nat.zero_le _, rfl⟩ hallocated.available
  have hsame : ∀ index, entry zeroed kernelPml4 index = entry memory kernelPml4 index :=
    entry_congr hkernelAligned fun _ hposition ↦
      hallocated.frame _ (not_inPage_of_ne haligned hkernelAligned hne hposition)
  -- an entry is empty or, in the upper half, the kernel's
  have hentries : ∀ index : TableIndex,
      childOf (entry (copyKernelEntries pml4 kernelPml4 zeroed) pml4 index) = none ∨
        256 ≤ index.toNat ∧ entry (copyKernelEntries pml4 kernelPml4 zeroed) pml4 index =
          entry memory kernelPml4 index := by
    intro index
    rcases entry_copyKernelEntries haligned hkernelAligned hne index with
      ⟨hnot, hold⟩ | ⟨hupper, hcopied⟩
    · left
      rw [hold, hempty index hnot]
    · exact Or.inr ⟨hupper, hcopied.trans (hsame index)⟩
  have hframe : ∀ position, ¬ InPage pml4 position →
      copyKernelEntries pml4 kernelPml4 zeroed position = memory position := fun position houtside ↦
    (copyKernelEntries_apply haligned houtside).trans (hallocated.frame position houtside)
  obtain ⟨hjoined, hkept, htables⟩ := hspaces.insert_copy hkernel hallocated.ready
    hallocated.available (fun page ↦ (hallocated.rest page).mp)
    (fun index table hslot ↦ by
      rcases hentries index with hnone | ⟨-, hcopied⟩
      · rw [hnone] at hslot
        cases hslot
      · rwa [hcopied] at hslot) hframe
  refine ⟨hjoined, hallocated.available, hallocated.rest, hallocated.source, hframe, hkept, ?_,
    htables⟩
  intro index hlower
  rcases hentries index with hnone | ⟨hupper, -⟩
  · exact hnone
  · omega

/-- `vmm_new_pagedir` takes the next page of the pool, and writes to the kernel image only. -/
theorem vmmNewPagedir_pool (kernelPml4 : Word) (memory : Memory) (hready : SupplyReady supply)
    (hpool : supply.ptPoolUsed.toNat + 4096 ≤ 262144) :
    ∃ pml4 next supplyNext, vmmNewPagedir kernelPml4 memory supply = some (pml4, next, supplyNext) ∧
      SupplyReady supplyNext ∧ supplyNext.pmm = supply.pmm ∧
        supplyNext.ptPoolUsed.toNat = supply.ptPoolUsed.toNat + 4096 ∧
          ∀ position, 0x200000 ≤ position → next position = memory position := by
  rcases allocTable_cases hready memory with ⟨-, halloc⟩ | ⟨hnot, -⟩ | ⟨hnot, -⟩
  · have hallocated := hready.allocTable halloc
    obtain ⟨haddress, hused⟩ := hready.toNat_pool hpool
    have hend := hready.pool_end
    unfold vmmNewPagedir
    rw [halloc]
    refine ⟨_, _, _, rfl, hallocated.ready, rfl, hused, fun position hposition ↦ ?_⟩
    have houtside : ¬ InPage (supply.ptPool + supply.ptPoolUsed) position := by
      rw [InPage, haddress]
      omega
    rw [copyKernelEntries_apply hallocated.aligned houtside, hallocated.frame position houtside]
  · omega
  · omega

end Created

end Colix.Mm
