import Colix.Foundation.BitSet
import Colix.Foundation.ByteMemory
import Colix.Foundation.RadixTree
import Colix.Types

/-!
# Page tables

`vmm_map`, `vmm_unmap` and `vmm_resolve` of `kernel/mm/vmm.c`, over physical memory: a table is
accessed at its physical address. The source dereferences that address with paging on, which comes
to the same where the tables are mapped to themselves (`Proc.TablesInPlace`). `alloc_table` is an
argument, with a state of its own; `none` is its panic. TLB flushes and the constant result of
`vmm_map` are left out.

After the source come the forms the proofs use: a resolve is a descent in the radix tree of
tables (`vmmResolve_eq`), and `vmmMap_rule` is the rule for `vmm_map`: what hanging a new table
keeps holds until its last store.
-/

set_option autoImplicit false
set_option relaxedAutoImplicit false

namespace Colix.Mm

open Foundation

/-! ### The source -/

/-- An index into a page table: a nine-bit field of an address. -/
abbrev TableIndex := BitVec 9

/-- `PML4_IDX`. -/
def pml4Idx (va : Word) : TableIndex := (va >>> 39).setWidth 9

/-- `PDP_IDX`. -/
def pdpIdx (va : Word) : TableIndex := (va >>> 30).setWidth 9

/-- `PD_IDX`. -/
def pdIdx (va : Word) : TableIndex := (va >>> 21).setWidth 9

/-- `PT_IDX`. -/
def ptIdx (va : Word) : TableIndex := (va >>> 12).setWidth 9

/-- `PTE_PRESENT`, `PTE_WRITABLE`, `PTE_USER` and `PTE_ADDR_MASK`. -/
abbrev ptePresent : Word := 1#64
abbrev pteWritable : Word := 2#64
abbrev pteUser : Word := 4#64
abbrev pteAddrMask : Word := 0x000FFFFFFFFFF000#64

/-- `PTE_PHYS`. -/
def ptePhys (e : Word) : Word := e &&& pteAddrMask

/-- `e & PTE_PRESENT`. -/
def isPresent (e : Word) : Bool := e &&& ptePresent != 0#64

/-- The address of `table[index]`. -/
def entryAddress (table : Word) (index : TableIndex) : ℕ :=
  (table + 8#64 * index.setWidth 64).toNat

/-- `table[index]`, read where the table lies in physical memory. -/
def entry (memory : Memory) (table : Word) (index : TableIndex) : Word :=
  load 64 memory (entryAddress table index)

/-- `table[index] = e`, stored where the table lies in physical memory. -/
def setEntry (memory : Memory) (table : Word) (index : TableIndex) (e : Word) : Memory :=
  store memory (entryAddress table index) e

section Map

variable {Supply : Type*} (allocTable : Memory → Supply → Option (Word × Memory × Supply))

/-- The entry `vmm_map` makes for a new table. -/
def tableEntry (table flags : Word) : Word :=
  table ||| ptePresent ||| pteWritable ||| (flags &&& pteUser)

/-- One level of `vmm_map`: the table that `table[index]` points to, made when there is none. -/
def nextTable (table : Word) (index : TableIndex) (flags : Word) (memory : Memory)
    (supply : Supply) : Option (Word × Memory × Supply) :=
  if isPresent (entry memory table index) then
    some (ptePhys (entry memory table index), memory, supply)
  else
    match allocTable memory supply with
    | none => none
    | some (new, memory, supply) =>
      let memory := setEntry memory table index (tableEntry new flags)
      some (ptePhys (entry memory table index), memory, supply)

/-- `vmm_map(pml4, virt, phys, flags)`, on tables accessed where they lie. -/
def vmmMap (pml4 virt phys flags : Word) (memory : Memory) (supply : Supply) :
    Option (Memory × Supply) :=
  match nextTable allocTable pml4 (pml4Idx virt) flags memory supply with
  | none => none
  | some (pdp, memory, supply) =>
    match nextTable allocTable pdp (pdpIdx virt) flags memory supply with
    | none => none
    | some (pd, memory, supply) =>
      match nextTable allocTable pd (pdIdx virt) flags memory supply with
      | none => none
      | some (pt, memory, supply) =>
        some
          (setEntry memory pt (ptIdx virt) ((phys &&& pteAddrMask) ||| (flags ||| ptePresent)),
            supply)

end Map

/-- `vmm_unmap(pml4, virt)`. -/
def vmmUnmap (pml4 virt : Word) (memory : Memory) : Memory :=
  if !isPresent (entry memory pml4 (pml4Idx virt)) then memory
  else
    let pdp := ptePhys (entry memory pml4 (pml4Idx virt))
    if !isPresent (entry memory pdp (pdpIdx virt)) then memory
    else
      let pd := ptePhys (entry memory pdp (pdpIdx virt))
      if !isPresent (entry memory pd (pdIdx virt)) then memory
      else
        let pt := ptePhys (entry memory pd (pdIdx virt))
        setEntry memory pt (ptIdx virt) 0#64

/-- `vmm_resolve(pml4, virt)`. -/
def vmmResolve (pml4 virt : Word) (memory : Memory) : Word :=
  if !isPresent (entry memory pml4 (pml4Idx virt)) then 0#64
  else
    let pdp := ptePhys (entry memory pml4 (pml4Idx virt))
    if !isPresent (entry memory pdp (pdpIdx virt)) then 0#64
    else
      let pd := ptePhys (entry memory pdp (pdpIdx virt))
      if !isPresent (entry memory pd (pdIdx virt)) then 0#64
      else
        let pt := ptePhys (entry memory pd (pdIdx virt))
        if !isPresent (entry memory pt (ptIdx virt)) then 0#64
        else ptePhys (entry memory pt (ptIdx virt)) ||| (virt &&& 0xFFF#64)

/-! ### Entries -/

/-- What an entry points to, when it is present. -/
def childOf (e : Word) : Option Word :=
  if isPresent e then some (ptePhys e) else none

/-- The address of a page. -/
def PageAligned (table : Word) : Prop :=
  table.toNat % 4096 = 0

theorem isPresent_eq (e : Word) : isPresent e = e.getLsbD 0 :=
  and_bitMask_ne_zero (w := 64) (by decide) e 0

theorem ptePhys_or (first second : Word) :
    ptePhys (first ||| second) = ptePhys first ||| ptePhys second :=
  BitVec.and_or_distrib_right

theorem ptePhys_ptePhys (e : Word) : ptePhys (ptePhys e) = ptePhys e := by
  rw [ptePhys, ptePhys, BitVec.and_assoc, BitVec.and_self]

theorem toNat_ptePhys (e : Word) : (ptePhys e).toNat = e.toNat % 2 ^ 52 / 4096 * 4096 := by
  have hmask : pteAddrMask = BitVec.ofNat 64 (2 ^ 52 - 1) &&& ~~~BitVec.ofNat 64 (2 ^ 12 - 1) := by
    decide
  rw [ptePhys, hmask, ← BitVec.and_assoc, toNat_and_not_lowMask (by decide),
    toNat_and_lowMask (by decide)]
  rfl

theorem pageAligned_ptePhys (e : Word) : PageAligned (ptePhys e) := by
  rw [PageAligned, toNat_ptePhys]
  exact Nat.mul_mod_left _ _

theorem ptePhys_lt (e : Word) : (ptePhys e).toNat < 2 ^ 52 := by
  rw [toNat_ptePhys]
  omega

/-- A page below 2^52 is the page of its own address. -/
theorem ptePhys_of_pageAligned {table : Word} (haligned : PageAligned table)
    (hbound : table.toNat < 2 ^ 52) : ptePhys table = table := by
  apply BitVec.eq_of_toNat_eq
  rw [PageAligned] at haligned
  rw [toNat_ptePhys]
  omega

/-- The entry for a new table points to the table's page. -/
theorem childOf_tableEntry (table flags : Word) :
    childOf (tableEntry table flags) = some (ptePhys table) := by
  have hpresent : isPresent (tableEntry table flags) = true := by
    simp [isPresent_eq, tableEntry]
  have huser : ptePhys (flags &&& pteUser) = 0#64 := by
    rw [ptePhys, BitVec.and_assoc, show pteUser &&& pteAddrMask = 0#64 by decide, BitVec.and_zero]
  rw [childOf, if_pos hpresent, tableEntry, ptePhys_or, ptePhys_or, ptePhys_or, huser,
    show ptePhys ptePresent = 0#64 by decide, show ptePhys pteWritable = 0#64 by decide]
  simp

/-- The entry `vmm_map` makes for a page points to the page. Assumes: the flags stay clear of the
address bits. -/
theorem childOf_pageEntry {phys flags : Word} (hflags : flags &&& pteAddrMask = 0#64) :
    childOf ((phys &&& pteAddrMask) ||| (flags ||| ptePresent)) = some (ptePhys phys) := by
  have hpresent : isPresent ((phys &&& pteAddrMask) ||| (flags ||| ptePresent)) = true := by
    simp [isPresent_eq]
  rw [childOf, if_pos hpresent, ptePhys_or, ptePhys_or, show ptePhys flags = 0#64 from hflags,
    show ptePhys ptePresent = 0#64 by decide, show phys &&& pteAddrMask = ptePhys phys from rfl,
    ptePhys_ptePhys]
  simp

theorem childOf_zero : childOf 0#64 = none := by
  decide

/-- What a present entry points to is a page below 2^52. -/
theorem pageAligned_of_childOf {e table : Word} (hchild : childOf e = some table) :
    PageAligned table ∧ table.toNat < 2 ^ 52 := by
  rw [childOf, Option.ite_none_right_eq_some, Option.some.injEq] at hchild
  rw [← hchild.2]
  exact ⟨pageAligned_ptePhys e, ptePhys_lt e⟩

/-- The entries of a page-aligned table are consecutive words of its page. -/
theorem entryAddress_eq {table : Word} (haligned : PageAligned table) (index : TableIndex) :
    entryAddress table index = table.toNat + 8 * index.toNat := by
  have hindex := index.isLt
  have htable := table.isLt
  rw [PageAligned] at haligned
  rw [entryAddress, BitVec.toNat_add, BitVec.toNat_mul, BitVec.toNat_setWidth, BitVec.toNat_ofNat,
    Nat.mod_eq_of_lt (by omega : 8 < 2 ^ 64), Nat.mod_eq_of_lt (by omega : index.toNat < 2 ^ 64),
    Nat.mod_eq_of_lt (by omega : 8 * index.toNat < 2 ^ 64), Nat.mod_eq_of_lt (by omega)]

/-- The bytes of a page. -/
def InPage (table : Word) (position : ℕ) : Prop :=
  table.toNat ≤ position ∧ position < table.toNat + 4096

/-- A store to an entry touches no byte outside the table's page. -/
theorem setEntry_apply {memory : Memory} {table e : Word} {index : TableIndex} {position : ℕ}
    (haligned : PageAligned table) (houtside : ¬ InPage table position) :
    setEntry memory table index e position = memory position := by
  have hindex := index.isLt
  rw [InPage] at houtside
  rw [setEntry, entryAddress_eq haligned]
  exact store_apply_of_disjoint _ (by omega)

/-- Two distinct pages have no byte in common. -/
theorem not_inPage_of_ne {table other : Word} (haligned : PageAligned table)
    (hother : PageAligned other) (hne : other ≠ table) {position : ℕ}
    (hposition : InPage other position) : ¬ InPage table position := by
  intro hinPage
  apply hne
  apply BitVec.eq_of_toNat_eq
  rw [PageAligned] at haligned hother
  rw [InPage] at hposition hinPage
  omega

/-- The entries of a table depend only on its page. -/
theorem entry_congr {memory next : Memory} {table : Word} (haligned : PageAligned table)
    (hagree : ∀ position, InPage table position → next position = memory position)
    (index : TableIndex) : entry next table index = entry memory table index := by
  have hindex := index.isLt
  rw [entry, entry, entryAddress_eq haligned]
  exact load_congr fun position hge hlt ↦ hagree position ⟨by omega, by omega⟩

theorem entry_setEntry_self (memory : Memory) (table e : Word) (index : TableIndex) :
    entry (setEntry memory table index e) table index = e :=
  load_store (by decide) e

/-- A store to an entry leaves the other entries of the table alone. -/
theorem entry_setEntry_of_index_ne {memory : Memory} {table e : Word} {index other : TableIndex}
    (haligned : PageAligned table) (hne : other ≠ index) :
    entry (setEntry memory table index e) table other = entry memory table other := by
  have hindices : other.toNat ≠ index.toNat := fun heq ↦ hne (BitVec.eq_of_toNat_eq heq)
  rw [entry, setEntry, entryAddress_eq haligned, entryAddress_eq haligned, entry,
    entryAddress_eq haligned]
  exact load_store_of_disjoint _ (by omega)

/-- A store to an entry leaves the entries of the other tables alone. -/
theorem entry_setEntry_of_table_ne {memory : Memory} {table other e : Word} {index : TableIndex}
    (haligned : PageAligned table) (hother : PageAligned other) (hne : other ≠ table)
    (position : TableIndex) :
    entry (setEntry memory table index e) other position = entry memory other position :=
  entry_congr hother (fun _ hinPage ↦
    setEntry_apply haligned (not_inPage_of_ne haligned hother hne hinPage)) position

/-! ### Descents -/

/-- The table or page reached from a PML4 along a path of indices. -/
abbrev tableAt (memory : Memory) (pml4 : Word) (path : List TableIndex) : Option Word :=
  descend childOf (entry memory) pml4 path

theorem tableAt_snoc (memory : Memory) (pml4 : Word) (path : List TableIndex) (index : TableIndex) :
    tableAt memory pml4 (path ++ [index]) =
      (tableAt memory pml4 path).bind fun table ↦ childOf (entry memory table index) :=
  descend_snoc path index

/-- The indices that lead to the page table of an address. -/
def tablePath (virt : Word) : List TableIndex :=
  [pml4Idx virt, pdpIdx virt, pdIdx virt]

/-- The indices that lead to the page of an address. -/
def pagePath (virt : Word) : List TableIndex :=
  [pml4Idx virt, pdpIdx virt, pdIdx virt, ptIdx virt]

theorem pagePath_eq (virt : Word) : pagePath virt = tablePath virt ++ [ptIdx virt] := rfl

/-- A resolve is a descent of four levels. -/
theorem vmmResolve_eq (pml4 virt : Word) (memory : Memory) : vmmResolve pml4 virt memory =
    match tableAt memory pml4 (pagePath virt) with
    | some page => page ||| (virt &&& 0xFFF#64)
    | none => 0#64 := by
  simp only [vmmResolve, tableAt, pagePath, descend, childOf, Bool.not_eq_true']
  split_ifs <;> simp_all

/-- An unmap clears the entry of the page table that a descent of three levels reaches. -/
theorem vmmUnmap_eq (pml4 virt : Word) (memory : Memory) : vmmUnmap pml4 virt memory =
    match tableAt memory pml4 (tablePath virt) with
    | some pt => setEntry memory pt (ptIdx virt) 0#64
    | none => memory := by
  simp only [vmmUnmap, tableAt, tablePath, descend, childOf, Bool.not_eq_true']
  split_ifs <;> simp_all

/-! ### The rule for `vmm_map` -/

section Rule

variable {Supply : Type*} {allocTable : Memory → Supply → Option (Word × Memory × Supply)}
  {pml4 flags : Word} {motive : Memory → Supply → Prop}

/-- A step of `vmm_map` that hangs a new table under an empty entry at the end of a path. -/
structure LinkStep (allocTable : Memory → Supply → Option (Word × Memory × Supply))
    (pml4 flags : Word) (path : List TableIndex) (index : TableIndex) (memory : Memory)
    (supply : Supply) (table new : Word) (zeroed : Memory) (supplyNext : Supply) : Prop where
  reached : tableAt memory pml4 path = some table
  empty : childOf (entry memory table index) = none
  allocated : allocTable memory supply = some (new, zeroed, supplyNext)

/-- The memory after such a step. -/
def linked (zeroed : Memory) (table : Word) (index : TableIndex) (new flags : Word) : Memory :=
  setEntry zeroed table index (tableEntry new flags)

/-- One level of `vmm_map` reaches the next table. Assumes: hanging a table keeps the motive and
the path to where it hangs. -/
theorem nextTable_rule (path : List TableIndex) {index : TableIndex} {memory next : Memory}
    {supply supplyNext : Supply} {table reached : Word}
    (hlink : ∀ new zeroed supplyNext, motive memory supply →
      LinkStep allocTable pml4 flags path index memory supply table new zeroed supplyNext →
        motive (linked zeroed table index new flags) supplyNext ∧
          tableAt (linked zeroed table index new flags) pml4 path = some table)
    (hmotive : motive memory supply) (hreach : tableAt memory pml4 path = some table)
    (hnext : nextTable allocTable table index flags memory supply =
      some (reached, next, supplyNext)) :
    motive next supplyNext ∧ tableAt next pml4 (path ++ [index]) = some reached := by
  rw [nextTable] at hnext
  split_ifs at hnext with hpresent
  · simp only [Option.some.injEq, Prod.mk.injEq] at hnext
    obtain ⟨rfl, rfl, rfl⟩ := hnext
    refine ⟨hmotive, ?_⟩
    rw [tableAt_snoc, hreach, Option.bind_some, childOf, if_pos hpresent]
  · have hempty : childOf (entry memory table index) = none := if_neg hpresent
    cases halloc : allocTable memory supply with
    | none => simp [halloc] at hnext
    | some allocated =>
      obtain ⟨new, zeroed, supplyAfter⟩ := allocated
      simp only [halloc, Option.some.injEq, Prod.mk.injEq] at hnext
      obtain ⟨rfl, rfl, rfl⟩ := hnext
      obtain ⟨hkept, hpath⟩ := hlink new zeroed supplyAfter hmotive ⟨hreach, hempty, halloc⟩
      refine ⟨hkept, ?_⟩
      have hchild := childOf_tableEntry new flags
      rw [← entry_setEntry_self zeroed table (tableEntry new flags) index] at hchild
      have hpresent : isPresent (entry (setEntry zeroed table index (tableEntry new flags)) table
          index) = true := by
        rw [childOf, Option.ite_none_right_eq_some] at hchild
        exact hchild.1
      rw [linked] at hpath
      rw [tableAt_snoc, hpath, Option.bind_some, childOf, if_pos hpresent]

/-- `vmm_map` hangs tables along the path of its address, then stores the entry of the page. -/
theorem vmmMap_rule {virt phys : Word} {memory next : Memory} {supply supplyNext : Supply}
    (hlink : ∀ path index memory supply table new zeroed supplyNext,
      path ++ [index] <+: tablePath virt → motive memory supply →
      LinkStep allocTable pml4 flags path index memory supply table new zeroed supplyNext →
        motive (linked zeroed table index new flags) supplyNext ∧
          tableAt (linked zeroed table index new flags) pml4 path = some table)
    (hmotive : motive memory supply)
    (hmap : vmmMap allocTable pml4 virt phys flags memory supply = some (next, supplyNext)) :
    ∃ before pt, motive before supplyNext ∧ tableAt before pml4 (tablePath virt) = some pt ∧
      next = setEntry before pt (ptIdx virt)
        ((phys &&& pteAddrMask) ||| (flags ||| ptePresent)) := by
  rw [vmmMap] at hmap
  rcases hpdp : nextTable allocTable pml4 (pml4Idx virt) flags memory supply with
    _ | ⟨pdp, memoryPdp, supplyPdp⟩
  · simp [hpdp] at hmap
  rcases hpd : nextTable allocTable pdp (pdpIdx virt) flags memoryPdp supplyPdp with
    _ | ⟨pd, memoryPd, supplyPd⟩
  · simp [hpdp, hpd] at hmap
  rcases hpt : nextTable allocTable pd (pdIdx virt) flags memoryPd supplyPd with
    _ | ⟨pt, memoryPt, supplyPt⟩
  · simp [hpdp, hpd, hpt] at hmap
  simp only [hpdp, hpd, hpt, Option.some.injEq, Prod.mk.injEq] at hmap
  obtain ⟨rfl, rfl⟩ := hmap
  obtain ⟨hfirst, hreachPdp⟩ := nextTable_rule []
    (fun new zeroed supplyNext ↦ hlink [] (pml4Idx virt) _ _ _ new zeroed supplyNext
      ⟨[pdpIdx virt, pdIdx virt], rfl⟩) hmotive rfl hpdp
  obtain ⟨hsecond, hreachPd⟩ := nextTable_rule [pml4Idx virt]
    (fun new zeroed supplyNext ↦ hlink [pml4Idx virt] (pdpIdx virt) _ _ _ new zeroed supplyNext
      ⟨[pdIdx virt], rfl⟩) hfirst hreachPdp hpd
  obtain ⟨hthird, hreachPt⟩ := nextTable_rule [pml4Idx virt, pdpIdx virt]
    (fun new zeroed supplyNext ↦ hlink [pml4Idx virt, pdpIdx virt] (pdIdx virt) _ _ _ new zeroed
      supplyNext ⟨[], rfl⟩) hsecond hreachPd hpt
  exact ⟨memoryPt, pt, hthird, hreachPt, rfl⟩

theorem nextTable_total {memory : Memory} {supply : Supply} (table : Word) (index : TableIndex)
    (flags : Word) (halloc : (allocTable memory supply).isSome) :
    ∃ reached next supplyNext,
      nextTable allocTable table index flags memory supply = some (reached, next, supplyNext) := by
  rw [nextTable]
  split_ifs
  · exact ⟨_, _, _, rfl⟩
  · obtain ⟨⟨new, zeroed, supplyNext⟩, hnew⟩ := Option.isSome_iff_exists.mp halloc
    rw [hnew]
    exact ⟨_, _, _, rfl⟩

/-- `vmm_map` returns when `alloc_table` does not panic. -/
theorem vmmMap_total {virt : Word} (phys : Word) {memory : Memory} {supply : Supply}
    (hlink : ∀ path index memory supply table new zeroed supplyNext,
      path ++ [index] <+: tablePath virt → motive memory supply →
      LinkStep allocTable pml4 flags path index memory supply table new zeroed supplyNext →
        motive (linked zeroed table index new flags) supplyNext ∧
          tableAt (linked zeroed table index new flags) pml4 path = some table)
    (halloc : ∀ memory supply, motive memory supply → (allocTable memory supply).isSome)
    (hmotive : motive memory supply) :
    ∃ next supplyNext,
      vmmMap allocTable pml4 virt phys flags memory supply = some (next, supplyNext) := by
  obtain ⟨pdp, memoryPdp, supplyPdp, hpdp⟩ := nextTable_total pml4 (pml4Idx virt) flags
    (halloc memory supply hmotive)
  obtain ⟨hfirst, hreachPdp⟩ := nextTable_rule []
    (fun new zeroed supplyNext ↦ hlink [] (pml4Idx virt) _ _ _ new zeroed supplyNext
      ⟨[pdpIdx virt, pdIdx virt], rfl⟩) hmotive rfl hpdp
  obtain ⟨pd, memoryPd, supplyPd, hpd⟩ := nextTable_total pdp (pdpIdx virt) flags
    (halloc _ _ hfirst)
  obtain ⟨hsecond, -⟩ := nextTable_rule [pml4Idx virt]
    (fun new zeroed supplyNext ↦ hlink [pml4Idx virt] (pdpIdx virt) _ _ _ new zeroed supplyNext
      ⟨[pdIdx virt], rfl⟩) hfirst hreachPdp hpd
  obtain ⟨pt, memoryPt, supplyPt, hpt⟩ := nextTable_total pd (pdIdx virt) flags
    (halloc _ _ hsecond)
  simp only [vmmMap, hpdp, hpd, hpt]
  exact ⟨_, _, rfl⟩

/-- What `alloc_table` keeps of the supply, a level of `vmm_map` keeps. -/
theorem nextTable_supply {motive : Supply → Prop} {memory next : Memory}
    {supply supplyNext : Supply} {table reached : Word} {index : TableIndex}
    (halloc : ∀ memory supply new zeroed supplyNext, motive supply →
      allocTable memory supply = some (new, zeroed, supplyNext) → motive supplyNext)
    (hmotive : motive supply)
    (hnext : nextTable allocTable table index flags memory supply =
      some (reached, next, supplyNext)) : motive supplyNext := by
  rw [nextTable] at hnext
  split_ifs at hnext with hpresent
  · simp only [Option.some.injEq, Prod.mk.injEq] at hnext
    exact hnext.2.2 ▸ hmotive
  · cases hnew : allocTable memory supply with
    | none => simp [hnew] at hnext
    | some allocated =>
      simp only [hnew, Option.some.injEq, Prod.mk.injEq] at hnext
      exact hnext.2.2 ▸ halloc _ _ _ _ _ hmotive hnew

/-- What `alloc_table` keeps of the supply, `vmm_map` keeps. -/
theorem vmmMap_supply {motive : Supply → Prop} {virt phys : Word} {memory next : Memory}
    {supply supplyNext : Supply}
    (halloc : ∀ memory supply new zeroed supplyNext, motive supply →
      allocTable memory supply = some (new, zeroed, supplyNext) → motive supplyNext)
    (hmotive : motive supply)
    (hmap : vmmMap allocTable pml4 virt phys flags memory supply = some (next, supplyNext)) :
    motive supplyNext := by
  rw [vmmMap] at hmap
  rcases hpdp : nextTable allocTable pml4 (pml4Idx virt) flags memory supply with
    _ | ⟨pdp, memoryPdp, supplyPdp⟩
  · simp [hpdp] at hmap
  rcases hpd : nextTable allocTable pdp (pdpIdx virt) flags memoryPdp supplyPdp with
    _ | ⟨pd, memoryPd, supplyPd⟩
  · simp [hpdp, hpd] at hmap
  rcases hpt : nextTable allocTable pd (pdIdx virt) flags memoryPd supplyPd with
    _ | ⟨pt, memoryPt, supplyPt⟩
  · simp [hpdp, hpd, hpt] at hmap
  simp only [hpdp, hpd, hpt, Option.some.injEq, Prod.mk.injEq] at hmap
  have hfirst := nextTable_supply halloc hmotive hpdp
  have hsecond := nextTable_supply halloc hfirst hpd
  exact hmap.2 ▸ nextTable_supply halloc hsecond hpt

end Rule

end Colix.Mm
