import Colix.Mm.AddressSpace

/-!
# The boot page tables

`setup_paging` of `boot/boot.asm`: four tables in the cleared `.bss` of the kernel image that map
the first 2 MiB to themselves. `spaces_setupPaging` is the address space that `vmm_init` starts
with, and `pageMap_setupPaging` the mappings it has.
-/

set_option autoImplicit false
set_option relaxedAutoImplicit false

namespace Colix.Mm

open Foundation

/-! ### The source -/

/-- Where the kernel image has `pml4_table` with the three tables after it, and `pt_pool`. -/
structure BootLayout where
  pml4Table : Word
  ptPool : Word
  tables_mod : pml4Table.toNat % 4096 = 0
  tables_end : pml4Table.toNat + 4 * 4096 ≤ 0x200000
  pool_mod : ptPool.toNat % 4096 = 0
  pool_end : ptPool.toNat + 262144 ≤ 0x200000
  disjoint : pml4Table.toNat + 4 * 4096 ≤ ptPool.toNat ∨ ptPool.toNat + 262144 ≤ pml4Table.toNat

/-- `pml4_table`, `pdp_table`, `pd_table` and `pt_table`, by level. -/
def BootLayout.table (layout : BootLayout) (level : ℕ) : Word :=
  layout.pml4Table + BitVec.ofNat 64 (level * 4096)

/-- The stores of a table's address to the first entry of the table above it. -/
def linkBootTable (layout : BootLayout) (level : ℕ) (memory : Memory) : Memory :=
  store memory (layout.table level).toNat ((layout.table (level + 1)).setWidth 32 ||| 3#32)

/-- The loop `.map_pt`, over the first `count` entries. -/
def mapBootPages (pt : ℕ) (count : ℕ) (memory : Memory) : Memory :=
  (List.range count).foldl
    (fun memory ecx ↦ store memory (pt + ecx * 8) (BitVec.ofNat 32 (ecx * 4096) ||| 3#32)) memory

/-- `setup_paging`. -/
def setupPaging (layout : BootLayout) (memory : Memory) : Memory :=
  let memory := linkBootTable layout 0 memory
  let memory := linkBootTable layout 1 memory
  let memory := linkBootTable layout 2 memory
  mapBootPages (layout.table 3).toNat 512 memory

/-- The tables are cleared before `setup_paging` runs. -/
def BssCleared (layout : BootLayout) (memory : Memory) : Prop :=
  ∀ position, layout.pml4Table.toNat ≤ position →
    position < layout.pml4Table.toNat + 4 * 4096 → memory position = 0#8

/-! ### The indices of an address -/

theorem toNat_shift_setWidth (va : Word) (shift : ℕ) :
    ((va >>> shift).setWidth 9 : TableIndex).toNat = va.toNat / 2 ^ shift % 512 := by
  rw [BitVec.toNat_setWidth, BitVec.toNat_ushiftRight, Nat.shiftRight_eq_div_pow]

theorem toNat_pml4Idx (va : Word) : (pml4Idx va).toNat = va.toNat / 2 ^ 39 % 512 :=
  toNat_shift_setWidth va 39

theorem toNat_pdpIdx (va : Word) : (pdpIdx va).toNat = va.toNat / 2 ^ 30 % 512 :=
  toNat_shift_setWidth va 30

theorem toNat_pdIdx (va : Word) : (pdIdx va).toNat = va.toNat / 2 ^ 21 % 512 :=
  toNat_shift_setWidth va 21

theorem toNat_ptIdx (va : Word) : (ptIdx va).toNat = va.toNat / 2 ^ 12 % 512 :=
  toNat_shift_setWidth va 12

/-! ### The entries of the boot tables -/

/-- An entry with the present and writable bits points to its page. -/
theorem childOf_or_three {page : Word} (haligned : PageAligned page)
    (hbound : page.toNat < 2 ^ 52) :
    childOf (page ||| 3#64) = some page := by
  have hpresent : isPresent (page ||| 3#64) = true := by
    simp [isPresent_eq]
  rw [childOf, if_pos hpresent, ptePhys_or, show ptePhys 3#64 = 0#64 by decide, BitVec.or_zero,
    ptePhys_of_pageAligned haligned hbound]

variable (layout : BootLayout) {memory : Memory}

theorem BootLayout.toNat_table {level : ℕ} (hlevel : level < 4) :
    (layout.table level).toNat = layout.pml4Table.toNat + level * 4096 := by
  have hend := layout.tables_end
  rw [BootLayout.table, BitVec.toNat_add, BitVec.toNat_ofNat,
    Nat.mod_eq_of_lt (by omega : level * 4096 < 2 ^ 64), Nat.mod_eq_of_lt (by omega)]

theorem BootLayout.pageAligned_table {level : ℕ} (hlevel : level < 4) :
    PageAligned (layout.table level) := by
  have hmod := layout.tables_mod
  rw [PageAligned, layout.toNat_table hlevel]
  omega

theorem BootLayout.table_zero : layout.table 0 = layout.pml4Table := by
  rw [BootLayout.table, Nat.zero_mul]
  exact BitVec.add_zero _

/-- Linking a table touches the first word of the table above it only. -/
theorem linkBootTable_apply {level position : ℕ} (hlevel : level < 4)
    (houtside : position < layout.pml4Table.toNat + level * 4096 ∨
      layout.pml4Table.toNat + level * 4096 + 8 ≤ position) :
    linkBootTable layout level memory position = memory position := by
  have haddress := layout.toNat_table hlevel
  exact store_apply_of_disjoint _ (by omega)

/-- The loop touches the entries it has reached only. -/
theorem mapBootPages_apply {pt count position : ℕ}
    (houtside : position < pt ∨ pt + count * 8 ≤ position) :
    mapBootPages pt count memory position = memory position := by
  induction count with
  | zero => rfl
  | succ count ih =>
    rw [mapBootPages, List.range_succ, List.foldl_append]
    exact (store_apply_of_disjoint _ (by omega)).trans (ih (by omega))

/-- The loop maps each page to itself. -/
theorem load_mapBootPages {pt count number : ℕ} (hnumber : number < count)
    (hzero : ∀ position, pt ≤ position → position < pt + count * 8 → memory position = 0#8) :
    load 64 (mapBootPages pt count memory) (pt + number * 8) =
      (BitVec.ofNat 32 (number * 4096) ||| 3#32).setWidth 64 := by
  induction count with
  | zero => omega
  | succ count ih =>
    rw [mapBootPages, List.range_succ, List.foldl_append]
    change load 64 (store (mapBootPages pt count memory) _ _) _ = _
    by_cases hlast : number = count
    · subst hlast
      refine load_store_extend (by decide) _ (fun position hge hlt ↦ ?_) (by decide)
      rw [mapBootPages_apply (by omega), hzero position (by omega) (by omega)]
    · rw [load_store_of_disjoint _ (by omega)]
      exact ih (by omega) fun position hge hlt ↦ hzero position hge (by omega)

/-- On the page of a table the memory is what it was with the table's own store. -/
theorem setupPaging_apply {level position : ℕ} (hlevel : level < 3)
    (hpage : InPage (layout.table level) position) :
    setupPaging layout memory position = linkBootTable layout level memory position := by
  have haddress := layout.toNat_table (show level < 4 by omega)
  have hthree := layout.toNat_table (show 3 < 4 by decide)
  rw [InPage, haddress] at hpage
  rw [setupPaging, mapBootPages_apply (by omega)]
  obtain rfl | rfl | rfl : level = 0 ∨ level = 1 ∨ level = 2 := by omega
  · rw [linkBootTable_apply layout (by decide) (by omega),
      linkBootTable_apply layout (by decide) (by omega)]
  · rw [linkBootTable_apply layout (by decide) (by omega)]
    exact store_apply_congr _ (linkBootTable_apply layout (by decide) (by omega))
  · refine store_apply_congr _ ?_
    rw [linkBootTable_apply layout (by decide) (by omega),
      linkBootTable_apply layout (by decide) (by omega)]

/-- The stores stay in the tables. -/
theorem setupPaging_apply_of_disjoint {position : ℕ}
    (houtside : position < layout.pml4Table.toNat ∨
      layout.pml4Table.toNat + 4 * 4096 ≤ position) :
    setupPaging layout memory position = memory position := by
  have hthree := layout.toNat_table (show 3 < 4 by decide)
  rw [setupPaging, mapBootPages_apply (by omega),
    linkBootTable_apply layout (by decide) (by omega),
    linkBootTable_apply layout (by decide) (by omega),
    linkBootTable_apply layout (by decide) (by omega)]

/-- A table's address fits the register the code moves it through. -/
theorem BootLayout.setWidth_table {level : ℕ} (hlevel : level < 4) :
    ((layout.table level).setWidth 32 ||| 3#32).setWidth 64 = layout.table level ||| 3#64 := by
  have haddress := layout.toNat_table hlevel
  have hend := layout.tables_end
  have hwide : ((layout.table level).setWidth 32).setWidth 64 = layout.table level := by
    apply BitVec.eq_of_toNat_eq
    rw [BitVec.toNat_setWidth, BitVec.toNat_setWidth,
      Nat.mod_eq_of_lt (by omega : (layout.table level).toNat < 2 ^ 32),
      Nat.mod_eq_of_lt (by omega)]
  rw [BitVec.setWidth_or, hwide]
  rfl

section Entries

variable (hbss : BssCleared layout memory)

include hbss

/-- The words of the tables are zero before `setup_paging`. -/
theorem load_bss {address : ℕ} (hge : layout.pml4Table.toNat ≤ address)
    (hlt : address + 8 ≤ layout.pml4Table.toNat + 4 * 4096) : load 64 memory address = 0#64 := by
  have hsame : load 64 memory address = load 64 (fun _ ↦ 0#8) address :=
    load_congr fun position hposition hend ↦ hbss position (by omega) (by omega)
  rw [hsame, load_zero]

/-- The first entry of each table above the page table points to the next table, and the others are
empty. -/
theorem childOf_entry_setupPaging {level : ℕ} (hlevel : level < 3) (index : TableIndex) :
    childOf (entry (setupPaging layout memory) (layout.table level) index) =
      if index = 0#9 then some (layout.table (level + 1)) else none := by
  have haddress := layout.toNat_table (show level < 4 by omega)
  have hnext := layout.toNat_table (show level + 1 < 4 by omega)
  have hend := layout.tables_end
  have hindex := index.isLt
  have haligned := layout.pageAligned_table (show level < 4 by omega)
  have hsame : entry (setupPaging layout memory) (layout.table level) index =
      entry (linkBootTable layout level memory) (layout.table level) index :=
    entry_congr haligned (fun _ hpage ↦ setupPaging_apply layout hlevel hpage) index
  rw [hsame, entry, entryAddress_eq haligned, linkBootTable]
  by_cases hzero : index = 0#9
  · rw [if_pos hzero, hzero, show (0#9).toNat = 0 from rfl, Nat.mul_zero,
      Nat.add_zero (layout.table level).toNat,
      load_store_extend (by decide) _ (fun position hge hlt ↦ hbss position (by omega) (by omega))
        (by decide), layout.setWidth_table (by omega),
      childOf_or_three (layout.pageAligned_table (by omega)) (by omega)]
  · have hpositive : index.toNat ≠ 0 := fun hnat ↦ hzero (BitVec.eq_of_toNat_eq hnat)
    rw [if_neg hzero, load_store_of_disjoint _ (by omega),
      load_bss layout hbss (by omega) (by omega), childOf_zero]

/-- The entries of the page table point to the first 512 pages. -/
theorem childOf_entry_setupPaging_pt (index : TableIndex) :
    childOf (entry (setupPaging layout memory) (layout.table 3) index) =
      some (BitVec.ofNat 64 (index.toNat * 4096)) := by
  have haddress := layout.toNat_table (show 3 < 4 by decide)
  have hindex := index.isLt
  have haligned := layout.pageAligned_table (show 3 < 4 by decide)
  have hpage : (BitVec.ofNat 64 (index.toNat * 4096)).toNat = index.toNat * 4096 := by
    rw [BitVec.toNat_ofNat, Nat.mod_eq_of_lt (by omega)]
  have hword : (BitVec.ofNat 32 (index.toNat * 4096) ||| 3#32).setWidth 64 =
      BitVec.ofNat 64 (index.toNat * 4096) ||| 3#64 := by
    have hwide : (BitVec.ofNat 32 (index.toNat * 4096)).setWidth 64 =
        BitVec.ofNat 64 (index.toNat * 4096) := by
      apply BitVec.eq_of_toNat_eq
      rw [hpage, BitVec.toNat_setWidth, BitVec.toNat_ofNat,
        Nat.mod_eq_of_lt (by omega : index.toNat * 4096 < 2 ^ 32), Nat.mod_eq_of_lt (by omega)]
    simp only [BitVec.setWidth_or, hwide, show (3#32).setWidth 64 = 3#64 from rfl]
  rw [entry, entryAddress_eq haligned, Nat.mul_comm 8, setupPaging, load_mapBootPages hindex, hword]
  · refine childOf_or_three ?_ (by omega)
    rw [PageAligned, hpage]
    exact Nat.mul_mod_left _ _
  · intro position hge hlt
    rw [linkBootTable_apply layout (by decide) (by omega),
      linkBootTable_apply layout (by decide) (by omega),
      linkBootTable_apply layout (by decide) (by omega)]
    exact hbss position (by omega) (by omega)

/-! ### The boot address space -/

/-- The paths of the boot tables take the first entry at every level. -/
theorem tableAt_setupPaging (path : List TableIndex) (hlength : path.length ≤ 3) :
    tableAt (setupPaging layout memory) layout.pml4Table path =
      if path = List.replicate path.length 0#9 then some (layout.table path.length) else none := by
  induction path using List.reverseRecOn with
  | nil =>
    rw [List.length_nil, layout.table_zero]
    rfl
  | append_singleton path index ih =>
    rw [List.length_append, List.length_singleton] at hlength ⊢
    rw [tableAt_snoc, ih (by omega), List.replicate_succ']
    by_cases hpath : path = List.replicate path.length 0#9
    · rw [if_pos hpath, Option.bind_some, childOf_entry_setupPaging layout hbss (by omega)]
      by_cases hindex : index = 0#9
      · rw [if_pos hindex, if_pos (by rw [← hpath, hindex])]
      · rw [if_neg hindex, if_neg fun heq ↦ hindex (by simpa using (List.append_inj' heq rfl).2)]
    · rw [if_neg hpath, Option.bind_none, if_neg]
      exact fun heq ↦ hpath (List.append_inj' heq rfl).1

/-- A table of the boot page tables is one of the four. -/
theorem table_of_setupPaging {table : Word}
    (htable : TableOf (setupPaging layout memory) layout.pml4Table table) :
    ∃ level < 4, table = layout.table level := by
  obtain ⟨path, hlength, hreach⟩ := htable
  replace hreach : tableAt (setupPaging layout memory) layout.pml4Table path = some table := hreach
  rw [tableAt_setupPaging layout hbss path hlength, Option.ite_none_right_eq_some] at hreach
  exact ⟨path.length, by omega, (Option.some.inj hreach.2).symm⟩

/-- The boot page tables are an address space, with `pt_pool` unused. -/
theorem spaces_setupPaging {pmm : Pmm} (hregion : RegionReady pmm) :
    Spaces (fun root ↦ root = layout.pml4Table) (setupPaging layout memory)
      ⟨layout.ptPool, 0#64, pmm⟩ := by
  have hmod := layout.tables_mod
  refine ⟨⟨hregion, layout.pool_mod, layout.pool_end, rfl, Nat.zero_le _⟩, ?_, ?_, ?_⟩
  · rintro root rfl
    exact hmod
  · refine IsTree.isForest ?_
    intro first second table hfirst hsecond hreachFirst hreachSecond
    replace hreachFirst : tableAt _ _ first = some table := hreachFirst
    replace hreachSecond : tableAt _ _ second = some table := hreachSecond
    rw [tableAt_setupPaging layout hbss first hfirst, Option.ite_none_right_eq_some,
      Option.some.injEq] at hreachFirst
    rw [tableAt_setupPaging layout hbss second hsecond, Option.ite_none_right_eq_some,
      Option.some.injEq] at hreachSecond
    have hlengths : first.length = second.length := by
      have haddress := layout.toNat_table (show first.length < 4 by omega)
      rw [hreachFirst.2, ← hreachSecond.2, layout.toNat_table (by omega)] at haddress
      omega
    rw [hreachFirst.1, hreachSecond.1, hlengths]
  · rintro root table rfl htable hpage
    obtain ⟨level, hlevel, rfl⟩ := table_of_setupPaging layout hbss htable
    have haddress := layout.toNat_table hlevel
    have hend := layout.tables_end
    rcases hpage with ⟨number, hge, hlt, hnumber⟩ | hfree
    · have hdisjoint := layout.disjoint
      change _ = layout.ptPool.toNat + _ at hnumber
      omega
    · have hinRegion := hfree.inRegion
      have hbase := hregion.base_ge
      change pmm.pmmBase.toNat ≤ _ ∧ _ at hinRegion
      omega

/-- The first 2 MiB are mapped to themselves. -/
theorem pageMap_setupPaging {page : Word} (haligned : PageAligned page)
    (hpage : page.toNat < 0x200000) :
    pageMap (setupPaging layout memory) layout.pml4Table (virtualPage page) = some page := by
  have hpml4 : pml4Idx page = 0#9 := by
    apply BitVec.eq_of_toNat_eq
    rw [toNat_pml4Idx, BitVec.toNat_ofNat]
    omega
  have hpdp : pdpIdx page = 0#9 := by
    apply BitVec.eq_of_toNat_eq
    rw [toNat_pdpIdx, BitVec.toNat_ofNat]
    omega
  have hpd : pdIdx page = 0#9 := by
    apply BitVec.eq_of_toNat_eq
    rw [toNat_pdIdx, BitVec.toNat_ofNat]
    omega
  have hpath : tablePath page = List.replicate (tablePath page).length 0#9 := by
    rw [tablePath, hpml4, hpdp, hpd]
    rfl
  rw [pageMap, ← pagePath_eq_indicesOf, pagePath_eq, tableAt_snoc,
    tableAt_setupPaging layout hbss _ (le_refl 3), if_pos hpath, Option.bind_some]
  change childOf (entry _ (layout.table 3) _) = _
  rw [childOf_entry_setupPaging_pt layout hbss, toNat_ptIdx]
  congr 1
  apply BitVec.eq_of_toNat_eq
  rw [PageAligned] at haligned
  rw [BitVec.toNat_ofNat, Nat.mod_eq_of_lt (by omega)]
  omega

end Entries

end Colix.Mm
