import Mathlib.Order.Interval.Finset.Nat
import Colix.Mm.PmmRefinement
import Colix.Mm.VmmInit

/-!
# `vmm_init` from the pool alone

When the addresses that `vmm_init` maps lie below 1 GiB and in no more than 64 chunks of 2 MiB, the
pool has a table for each chunk, so `vmm_init` returns, takes no table from the page allocator, and
binds the heap to the first 1024 pages of the region (`vmmInit_pool`).

`PoolMapped` counts: the pool has been used for the chunks touched so far and no others.
-/

set_option autoImplicit false
set_option relaxedAutoImplicit false

namespace Colix.Mm

open Foundation

/-! ### A map that needs at most a page table -/

section Map

variable {memory zeroed : Memory} {supply supplyNext : TableSupply}
  {root virt phys flags table reached new : Word} {index : TableIndex}

theorem nextTable_of_child (flags : Word) (supply : TableSupply)
    (hchild : childOf (entry memory table index) = some reached) :
    nextTable allocTable table index flags memory supply = some (reached, memory, supply) := by
  rw [childOf, Option.ite_none_right_eq_some, Option.some.injEq] at hchild
  rw [nextTable, if_pos hchild.1, hchild.2]

/-- A map whose page table is there stores the entry. -/
theorem vmmMap_of_pageTable {pt : Word} (hreach : tableAt memory root (tablePath virt) = some pt) :
    vmmMap allocTable root virt phys flags memory supply =
      some (setEntry memory pt (ptIdx virt) ((phys &&& pteAddrMask) ||| (flags ||| ptePresent)),
        supply) := by
  obtain ⟨pd, hpd, hpt⟩ := exists_descend_of_snoc
    (show tableAt memory root ([pml4Idx virt, pdpIdx virt] ++ [pdIdx virt]) = some pt from hreach)
  obtain ⟨pdp, hpdp, hpdChild⟩ := exists_descend_of_snoc
    (show tableAt memory root ([pml4Idx virt] ++ [pdpIdx virt]) = some pd from hpd)
  obtain ⟨_, hroot, hpdpChild⟩ := exists_descend_of_snoc
    (show tableAt memory root ([] ++ [pml4Idx virt]) = some pdp from hpdp)
  cases hroot
  simp only [vmmMap, nextTable_of_child flags supply hpdpChild,
    nextTable_of_child flags supply hpdChild, nextTable_of_child flags supply hpt]

/-- A map whose directories are there makes a page table. -/
theorem vmmMap_of_directory {pd : Word} (phys flags : Word)
    (hreach : tableAt memory root [pml4Idx virt, pdpIdx virt] = some pd)
    (hempty : childOf (entry memory pd (pdIdx virt)) = none)
    (halloc : allocTable memory supply = some (new, zeroed, supplyNext)) :
    ∃ next, vmmMap allocTable root virt phys flags memory supply = some (next, supplyNext) := by
  obtain ⟨pdp, hpdp, hpdChild⟩ := exists_descend_of_snoc
    (show tableAt memory root ([pml4Idx virt] ++ [pdpIdx virt]) = some pd from hreach)
  obtain ⟨_, hroot, hpdpChild⟩ := exists_descend_of_snoc
    (show tableAt memory root ([] ++ [pml4Idx virt]) = some pdp from hpdp)
  cases hroot
  have hpresent : ¬ isPresent (entry memory pd (pdIdx virt)) = true := by
    intro hpresent
    rw [childOf, if_pos hpresent] at hempty
    cases hempty
  simp only [vmmMap, nextTable_of_child flags supply hpdpChild,
    nextTable_of_child flags supply hpdChild]
  rw [nextTable, if_neg hpresent, halloc]
  exact ⟨_, rfl⟩

end Map

/-! ### Maps from the pool -/

/-- The supply after some of the pool was used, and nothing else. -/
structure PoolUsed (supply : TableSupply) (count : ℕ) (supplyNext : TableSupply) : Prop where
  ready : SupplyReady supplyNext
  pool_eq : supplyNext.ptPool = supply.ptPool
  pmm_eq : supplyNext.pmm = supply.pmm
  used_le : supplyNext.ptPoolUsed.toNat ≤ supply.ptPoolUsed.toNat + count * 4096

section PoolUsed

variable {memory : Memory} {supply middle supplyNext : TableSupply} {count : ℕ}

theorem PoolUsed.trans {before : ℕ} (hfirst : PoolUsed supply before middle)
    (hsecond : PoolUsed middle count supplyNext) : PoolUsed supply (before + count) supplyNext := by
  have hfirstUsed := hfirst.used_le
  have hsecondUsed := hsecond.used_le
  exact ⟨hsecond.ready, hsecond.pool_eq.trans hfirst.pool_eq, hsecond.pmm_eq.trans hfirst.pmm_eq,
    by omega⟩

/-- One level of `vmm_map` takes at most one page of the pool. -/
theorem nextTable_pool (table : Word) (index : TableIndex) (flags : Word) (memory : Memory)
    (hready : SupplyReady supply) (hpool : supply.ptPoolUsed.toNat + 4096 ≤ 262144) :
    ∃ reached next supplyNext,
      nextTable allocTable table index flags memory supply = some (reached, next, supplyNext) ∧
        PoolUsed supply 1 supplyNext := by
  rw [nextTable]
  split_ifs
  · exact ⟨_, _, _, rfl, hready, rfl, rfl, by omega⟩
  · rcases allocTable_cases hready memory with ⟨-, halloc⟩ | ⟨hnot, -⟩ | ⟨hnot, -⟩
    · have hallocated := hready.allocTable halloc
      rw [halloc]
      refine ⟨_, _, _, rfl, hallocated.ready, rfl, rfl, ?_⟩
      show (supply.ptPoolUsed + pageSize).toNat ≤ _
      rw [(hready.toNat_pool hpool).2, Nat.one_mul]
    · omega
    · omega

/-- `vmm_map` returns when the pool has three pages left. -/
theorem vmmMap_pool (root virt phys flags : Word) (memory : Memory) (hready : SupplyReady supply)
    (hpool : supply.ptPoolUsed.toNat + 3 * 4096 ≤ 262144) :
    ∃ next supplyNext,
      vmmMap allocTable root virt phys flags memory supply = some (next, supplyNext) ∧
        PoolUsed supply 3 supplyNext := by
  obtain ⟨pdp, memoryPdp, supplyPdp, hpdp, hfirst⟩ := nextTable_pool root (pml4Idx virt) flags
    memory hready (by omega)
  have hfirstUsed := hfirst.used_le
  obtain ⟨pd, memoryPd, supplyPd, hpd, hsecond⟩ := nextTable_pool pdp (pdpIdx virt) flags
    memoryPdp hfirst.ready (by omega)
  have hsecondUsed := hsecond.used_le
  obtain ⟨pt, memoryPt, supplyPt, hpt, hthird⟩ := nextTable_pool pd (pdIdx virt) flags
    memoryPd hsecond.ready (by omega)
  have hused := (hfirst.trans hsecond).trans hthird
  simp only [vmmMap, hpdp, hpd, hpt]
  exact ⟨_, supplyPt, rfl, hused⟩

/-- The directories that `vmm_map` makes from the pool come zeroed. -/
theorem cleanDirectories_of_pool (root virt : Word) (hready : SupplyReady supply)
    (hpool : supply.ptPoolUsed.toNat + 2 * 4096 ≤ 262144) :
    CleanDirectories memory supply root virt := by
  have hmissing : missingDirectories memory root virt ≤ 2 := by
    rw [missingDirectories]
    split
    · exact le_refl 2
    · split
      · decide
      · decide
  exact cleanTables_of_pool hready
    ((Nat.add_le_add_left (Nat.mul_le_mul_right 4096 hmissing) _).trans hpool)

end PoolUsed

/-! ### Chunks of 2 MiB -/

/-- The addresses that share a page table. -/
def chunkOf (virt : Word) : ℕ :=
  virt.toNat / 2 ^ 21

theorem tablePath_eq_of_chunk {first second : Word} (hfirst : first.toNat < 2 ^ 30)
    (hsecond : second.toNat < 2 ^ 30) (hchunk : chunkOf first = chunkOf second) :
    tablePath first = tablePath second := by
  rw [chunkOf, chunkOf] at hchunk
  have hpml4 : pml4Idx first = pml4Idx second := by
    apply BitVec.eq_of_toNat_eq
    rw [toNat_pml4Idx, toNat_pml4Idx]
    omega
  have hpdp : pdpIdx first = pdpIdx second := by
    apply BitVec.eq_of_toNat_eq
    rw [toNat_pdpIdx, toNat_pdpIdx]
    omega
  have hpd : pdIdx first = pdIdx second := by
    apply BitVec.eq_of_toNat_eq
    rw [toNat_pdIdx, toNat_pdIdx, hchunk]
  rw [tablePath, tablePath, hpml4, hpdp, hpd]

/-- The kernel's address space with tables from the pool alone, one for each chunk touched. -/
structure PoolMapped (kernelPml4 : Word) (start : TableSupply) (touched : Finset ℕ)
    (memory : Memory) (supply : TableSupply) : Prop
    extends KernelMapped kernelPml4 start memory supply where
  used : supply.ptPoolUsed.toNat ≤ 4096 * touched.card
  present : ∀ virt : Word, virt.toNat < 2 ^ 30 → chunkOf virt ∈ touched →
    ∃ pt, tableAt memory kernelPml4 (tablePath virt) = some pt
  below : ∀ table, TableOf memory kernelPml4 table → table.toNat < 0x200000

section Pool

variable {kernelPml4 virt phys : Word} {start supply supplyNext : TableSupply}
  {memory next : Memory} {touched allowed : Finset ℕ}

/-- The first page directory is there from the start. -/
theorem KernelMapped.pageDirectory (hmapped : KernelMapped kernelPml4 start memory supply)
    (hvirt : virt.toNat < 2 ^ 30) :
    ∃ pd, tableAt memory kernelPml4 [pml4Idx virt, pdpIdx virt] = some pd := by
  have hmissing := hmapped.missingDirectories_eq hvirt
  rw [missingDirectories] at hmissing
  split at hmissing
  · cases hmissing
  · split at hmissing
    · cases hmissing
    · rename_i pd hpd
      exact ⟨pd, hpd⟩

/-- A map below 1 GiB takes at most one table, from the pool, for the chunk it touches. -/
theorem PoolMapped.map (hmapped : PoolMapped kernelPml4 start touched memory supply)
    (hsubset : insert (chunkOf virt) touched ⊆ allowed) (hcard : allowed.card ≤ 64)
    (hvirt : virt.toNat < 2 ^ 30) (hlow : 0x200000 ≤ virt.toNat) (hphys : PageAligned phys)
    (hbound : phys.toNat < 2 ^ 52) :
    ∃ next supplyNext, vmmMap allocTable kernelPml4 virt phys (ptePresent ||| pteWritable) memory
        supply = some (next, supplyNext) ∧
      PoolMapped kernelPml4 start (insert (chunkOf virt) touched) next supplyNext ∧
        supplyNext.pmm = supply.pmm ∧
          SpaceUpdate (fun root ↦ root = kernelPml4) kernelPml4 virt (some phys)
            memory supply next supplyNext := by
  have hcount := (Finset.card_le_card hsubset).trans hcard
  have hready := hmapped.spaces.ready
  -- what the map takes from the pool
  have htake : ∃ next supplyNext, vmmMap allocTable kernelPml4 virt phys
      (ptePresent ||| pteWritable) memory supply = some (next, supplyNext) ∧
        supplyNext.pmm = supply.pmm ∧
          supplyNext.ptPoolUsed.toNat ≤ 4096 * (insert (chunkOf virt) touched).card := by
    cases hreach : tableAt memory kernelPml4 (tablePath virt) with
    | some pt =>
      refine ⟨_, _, vmmMap_of_pageTable hreach, rfl, ?_⟩
      have hle := Finset.card_le_card (Finset.subset_insert (chunkOf virt) touched)
      have hused := hmapped.used
      omega
    | none =>
      have hnew : chunkOf virt ∉ touched := by
        intro hmem
        obtain ⟨pt, hpt⟩ := hmapped.present virt hvirt hmem
        rw [hreach] at hpt
        cases hpt
      obtain ⟨pd, hpd⟩ := hmapped.pageDirectory hvirt
      have hempty : childOf (entry memory pd (pdIdx virt)) = none := by
        rw [show tablePath virt = [pml4Idx virt, pdpIdx virt] ++ [pdIdx virt] from rfl,
          tableAt_snoc, hpd, Option.bind_some] at hreach
        exact hreach
      have hused := hmapped.used
      rw [Finset.card_insert_of_notMem hnew] at hcount ⊢
      have hpool : supply.ptPoolUsed.toNat + 4096 ≤ 262144 := by omega
      rcases allocTable_cases hready memory with ⟨-, halloc⟩ | ⟨hnot, -⟩ | ⟨hnot, -⟩
      · obtain ⟨next, hmap⟩ := vmmMap_of_directory phys (ptePresent ||| pteWritable) hpd hempty
          halloc
        refine ⟨next, _, hmap, rfl, ?_⟩
        show (supply.ptPoolUsed + pageSize).toNat ≤ _
        rw [(hready.toNat_pool hpool).2]
        omega
      · omega
      · omega
  obtain ⟨next, supplyNext, hmap, hpmm, hused⟩ := htake
  obtain ⟨hnext, hupdate⟩ := hmapped.toKernelMapped.map (hmapped.cleanDirectories hvirt) (by omega)
    hlow hphys hbound hmap
  refine ⟨next, supplyNext, hmap, ⟨hnext, hused, ?_, ?_⟩, hpmm, hupdate⟩
  · intro other hother hmem
    rcases Finset.mem_insert.mp hmem with hchunk | hold
    · have hself := hupdate.self
      rw [pageMap, ← pagePath_eq_indicesOf, pagePath_eq] at hself
      obtain ⟨pt, hpt, -⟩ := exists_descend_of_snoc hself
      rw [tablePath_eq_of_chunk hother hvirt hchunk]
      exact ⟨pt, hpt⟩
    · obtain ⟨pt, hpt⟩ := hmapped.present other hother hold
      exact ⟨pt, hupdate.keptTables kernelPml4 rfl _ (le_refl 3) pt hpt⟩
  · intro table htable
    rcases hupdate.tables kernelPml4 table rfl htable with hold | hpage
    · exact hmapped.below table hold
    · rcases hpage.low_or_free hready with hlow | hfree
      · exact hlow
      · -- a page of the page allocator would still be free
        rw [← hpmm] at hfree
        exact absurd (Or.inr hfree) (hnext.spaces.used kernelPml4 table rfl htable)

end Pool

/-! ### The page allocator hands out pages in order -/

/-- The first `count` pages of the region are in use, and the scan starts at the next. -/
structure PagesTaken (start : Pmm) (count : ℕ) (s : Pmm) : Prop where
  ready : RegionReady s
  base_eq : s.pmmBase = start.pmmBase
  total_eq : s.pmmTotalPages = start.pmmTotalPages
  used_iff : ∀ page < s.pmmTotalPages.toNat, bitTest s.bitmap page = true ↔ page < count
  last_eq : s.pmmLastAlloc.toNat = count % s.pmmTotalPages.toNat

section Taken

variable {start s : Pmm} {count : ℕ}

/-- After `pmm_init` no page is in use. -/
theorem pagesTaken_pmmInit (before : Pmm) (memBase memSize : Word)
    (hready : RegionReady (pmmInit before memBase memSize)) :
    PagesTaken (pmmInit before memBase memSize) 0 (pmmInit before memBase memSize) := by
  have hinv := PmmInvariant.init before memBase memSize
  refine ⟨hready, rfl, rfl, fun page hpage ↦ ?_, ?_⟩
  · rw [hinv.used_iff page hpage]
    exact iff_of_false (Finset.notMem_empty page) (Nat.not_lt_zero page)
  · exact (Nat.zero_mod _).symm

/-- The next page handed out is the first that is not in use. -/
theorem PagesTaken.pmmAlloc (htaken : PagesTaken start count s)
    (hcount : count < s.pmmTotalPages.toNat) :
    ∃ next, pmmAlloc s = (pageFrom s.pmmBase count, next) ∧ PagesTaken start (count + 1) next ∧
      Took s (pageFrom s.pmmBase count) next := by
  have hlast : s.pmmLastAlloc.toNat = count := by
    rw [htaken.last_eq, Nat.mod_eq_of_lt hcount]
  have hpage : s.pmmLastAlloc = BitVec.ofNat 64 count :=
    BitVec.eq_of_toNat_eq (by rw [hlast, BitVec.toNat_ofNat, Nat.mod_eq_of_lt (by omega)])
  have hunused : bitTest s.bitmap count = false := by
    rw [← Bool.not_eq_true, htaken.used_iff count hcount]
    exact lt_irrefl count
  -- the scan accepts the page it starts at
  have hfind : ((pmmScanOrder s).find? fun page ↦ !pmmIsUsed s.bitmap page) =
      some s.pmmLastAlloc := by
    obtain ⟨rest, hrest⟩ : ∃ rest, s.pmmTotalPages.toNat = rest + 1 :=
      ⟨s.pmmTotalPages.toNat - 1, by omega⟩
    have hfirst : (s.pmmLastAlloc + BitVec.ofNat 64 0) % s.pmmTotalPages = s.pmmLastAlloc := by
      apply BitVec.eq_of_toNat_eq
      rw [toNat_scanned htaken.ready.toScanReady (by omega), Nat.add_zero, hlast,
        Nat.mod_eq_of_lt hcount]
    rw [pmmScanOrder, hrest, List.range_succ_eq_map, List.map_cons, hfirst,
      List.find?_cons_of_pos]
    rw [pmmIsUsed_eq, hlast, hunused]
    rfl
  have hresult : Mm.pmmAlloc s = (pageFrom s.pmmBase count,
      { s with
        bitmap := bitSet s.bitmap count
        pmmFreePages := s.pmmFreePages - 1#64
        pmmLastAlloc := (s.pmmLastAlloc + 1#64) % s.pmmTotalPages }) := by
    simp only [Mm.pmmAlloc, hfind, pmmSetUsed_eq, hlast]
    rw [pageFrom, ← hpage]
  rcases htaken.ready.pmmAlloc_cases with ⟨hnull, hall⟩ | ⟨page, next, halloc, -, htook⟩
  · have hbase := htaken.ready.base_ge
    have hfits := htaken.ready.fits
    refine absurd ⟨count, hcount, ?_, hunused⟩ (hall (pageFrom s.pmmBase count))
    exact toNat_pageFrom (by omega)
  · rw [halloc, Prod.mk.injEq] at hresult
    obtain ⟨rfl, rfl⟩ := hresult
    refine ⟨_, halloc, ⟨htook.ready, htaken.base_eq, htaken.total_eq, fun page hpage ↦ ?_, ?_⟩,
      htook⟩
    · change bitTest (bitSet s.bitmap count) page = true ↔ _
      change page < s.pmmTotalPages.toNat at hpage
      rw [bitTest_bitSet (by decide), Bool.or_eq_true, decide_eq_true_iff,
        htaken.used_iff page hpage]
      omega
    · change ((s.pmmLastAlloc + 1#64) % s.pmmTotalPages).toNat = _ % s.pmmTotalPages.toNat
      rw [toNat_nextHint htaken.ready.toScanReady (by omega), hlast]

/-- The pages from the first that is not in use on are free. -/
theorem PagesTaken.freePage_iff (htaken : PagesTaken start count s) {page : Word} :
    FreePage s page ↔ ∃ number, count ≤ number ∧ number < s.pmmTotalPages.toNat ∧
      page.toNat = s.pmmBase.toNat + number * 4096 := by
  constructor
  · rintro ⟨number, hnumber, haddress, hfree⟩
    refine ⟨number, Nat.le_of_not_lt fun hlt ↦ ?_, hnumber, haddress⟩
    rw [(htaken.used_iff number hnumber).mpr hlt] at hfree
    cases hfree
  · rintro ⟨number, hge, hnumber, haddress⟩
    refine ⟨number, hnumber, haddress, ?_⟩
    rw [← Bool.not_eq_true, htaken.used_iff number hnumber]
    exact Nat.not_lt.mpr hge

end Taken

/-! ### The two loops -/

section Loops

variable {kernelPml4 : Word} {start : TableSupply} {memory : Memory} {allowed : Finset ℕ}

/-- The directories that `vmm_init` makes below 1 GiB are there from the start. -/
theorem KernelMapped.cleanWindow (hmapped : KernelMapped kernelPml4 start memory start)
    (hend : start.pmm.pmmBase.toNat + start.pmm.pmmTotalPages.toNat * 4096 ≤ 2 ^ 30) :
    CleanWindow kernelPml4 (memory, start) := by
  have hbase := hmapped.spaces.ready.region.base_ge
  have hmod := hmapped.spaces.ready.region.base_mod
  intro i hi reached hloop
  have hstart : KernelMapped kernelPml4 start (memory, start).1 (memory, start).2 := hmapped
  have hreached : KernelMapped kernelPml4 start reached.1 reached.2 := by
    refine countedLoop_rule (motive := fun _ state ↦ KernelMapped kernelPml4 start state.1 state.2)
      hstart ?_ hloop
    intro j hj state next _ hstate hbody
    have hjTotal : j < start.pmm.pmmTotalPages.toNat := hj.trans hi
    have haddress : (pageFrom start.pmm.pmmBase j).toNat = start.pmm.pmmBase.toNat + j * 4096 :=
      toNat_pageFrom (by omega)
    have haligned : PageAligned (pageFrom start.pmm.pmmBase j) := by
      rw [PageAligned, haddress]
      omega
    replace hbody : vmmMap allocTable kernelPml4 (pageFrom start.pmm.pmmBase j)
        (pageFrom start.pmm.pmmBase j) (ptePresent ||| pteWritable) state.1 state.2 =
          some (next.1, next.2) := hbody
    exact (hstate.map (hstate.cleanDirectories (by omega)) (by omega) (by omega) haligned
      (by omega) hbody).1
  have hiTotal : i < start.pmm.pmmTotalPages.toNat := hi
  have haddress : (pageFrom start.pmm.pmmBase i).toNat = start.pmm.pmmBase.toNat + i * 4096 :=
    toNat_pageFrom (by omega)
  exact hreached.cleanDirectories (by change (pageFrom start.pmm.pmmBase i).toNat < _; omega)

/-- What the two loops need: their addresses lie below 1 GiB, in at most 64 chunks. -/
structure PoolSuffices (start : TableSupply) (allowed : Finset ℕ) : Prop where
  region_end : start.pmm.pmmBase.toNat + start.pmm.pmmTotalPages.toNat * 4096 ≤ 2 ^ 30
  card_le : allowed.card ≤ 64
  window : ∀ i < start.pmm.pmmTotalPages.toNat, chunkOf (pageFrom start.pmm.pmmBase i) ∈ allowed
  heap : 2 ∈ allowed ∧ 3 ∈ allowed

/-- The first loop runs on the pool, as far as one follows it. -/
theorem PoolSuffices.mapWindow (hsuffices : PoolSuffices start allowed)
    (hmapped : PoolMapped kernelPml4 start ∅ memory start) {count : ℕ}
    (hcount : count ≤ start.pmm.pmmTotalPages.toNat) :
    ∃ last, Mm.mapWindow kernelPml4 count (memory, start) = some last ∧
      (∃ touched ⊆ allowed, PoolMapped kernelPml4 start touched last.1 last.2) ∧
        last.2.pmm = start.pmm := by
  have hbase := hmapped.spaces.ready.region.base_ge
  have hmod := hmapped.spaces.ready.region.base_mod
  have hregion := hsuffices.region_end
  refine countedLoop_total (motive := fun (_ : ℕ) (state : Memory × TableSupply) ↦
      (∃ touched ⊆ allowed, PoolMapped kernelPml4 start touched state.1 state.2) ∧
        state.2.pmm = start.pmm) ⟨⟨∅, Finset.empty_subset allowed, hmapped⟩, rfl⟩ ?_
  rintro i hi state - ⟨⟨touched, hsubset, hstate⟩, hpmm⟩
  have haddress : (pageFrom start.pmm.pmmBase i).toNat = start.pmm.pmmBase.toNat + i * 4096 :=
    toNat_pageFrom (by omega)
  have haligned : PageAligned (pageFrom start.pmm.pmmBase i) := by
    rw [PageAligned, haddress]
    omega
  have hinsert := Finset.insert_subset (hsuffices.window i (hi.trans_le hcount)) hsubset
  obtain ⟨next, supplyNext, hmap, hnext, hsame, -⟩ := hstate.map hinsert hsuffices.card_le
    (by omega) (by omega) haligned (by omega)
  exact ⟨(next, supplyNext), hmap, ⟨_, hinsert, hnext⟩, hsame.trans hpmm⟩

/-- What the second loop has done after `count` pages, on the pool: it bound the heap's addresses to
the first pages of the region, in order. -/
structure HeapTaken (kernelPml4 : Word) (start : TableSupply) (allowed : Finset ℕ) (count : ℕ)
    (memory : Memory) (supply : TableSupply) : Prop where
  mapped : ∃ touched ⊆ allowed, PoolMapped kernelPml4 start touched memory supply
  taken : PagesTaken start.pmm count supply.pmm
  bound : ∀ j < count, pageMap memory kernelPml4 (virtualPage (pageFrom kheapStart j)) =
    some (pageFrom start.pmm.pmmBase j)

theorem chunkOf_heap {i : ℕ} (hi : i < 1024) :
    chunkOf (pageFrom kheapStart i) = 2 ∨ chunkOf (pageFrom kheapStart i) = 3 := by
  rw [chunkOf, toNat_pageFrom_heap hi]
  omega

/-- An iteration of the second loop binds its heap address to the next page of the region. -/
theorem PoolSuffices.bindHeapPage (hsuffices : PoolSuffices start allowed) {i : ℕ} (hi : i < 1024)
    {supply : TableSupply} (hstate : HeapTaken kernelPml4 start allowed i memory supply)
    (htotal : i < start.pmm.pmmTotalPages.toNat) :
    ∃ next, Mm.bindHeapPage kernelPml4 i (memory, supply) = some next ∧
      HeapTaken kernelPml4 start allowed (i + 1) next.1 next.2 := by
  obtain ⟨⟨touched, hsubset, hmapped⟩, htaken, hbound⟩ := hstate
  have hbase := hmapped.spaces.ready.region.base_ge
  have hmod := hmapped.spaces.ready.region.base_mod
  have hfits := hmapped.spaces.ready.region.fits
  have htotalHere : i < supply.pmm.pmmTotalPages.toNat := by
    rw [htaken.total_eq]
    exact htotal
  have haddress : (pageFrom supply.pmm.pmmBase i).toNat = supply.pmm.pmmBase.toNat + i * 4096 :=
    toNat_pageFrom (by omega)
  have hheap := toNat_pageFrom_heap hi
  obtain ⟨pmm, halloc, hnextTaken, htook⟩ := htaken.pmmAlloc htotalHere
  have hne : pageFrom supply.pmm.pmmBase i ≠ 0#64 := by
    intro hnull
    rw [hnull, BitVec.toNat_ofNat, Nat.zero_mod] at haddress
    omega
  have hpool : PoolMapped kernelPml4 start touched memory { supply with pmm := pmm } :=
    ⟨(hmapped.toKernelMapped.take htook).1, hmapped.used, hmapped.present, hmapped.below⟩
  have hchunk : chunkOf (pageFrom kheapStart i) ∈ allowed := by
    rcases chunkOf_heap hi with hchunk | hchunk
    · rw [hchunk]
      exact hsuffices.heap.1
    · rw [hchunk]
      exact hsuffices.heap.2
  have hinsert := Finset.insert_subset hchunk hsubset
  have haligned : PageAligned (pageFrom supply.pmm.pmmBase i) := by
    rw [PageAligned, haddress]
    omega
  obtain ⟨next, supplyNext, hmap, hnext, hsame, hupdate⟩ := hpool.map hinsert hsuffices.card_le
    (by omega) (by omega) haligned (by omega)
  refine ⟨(next, supplyNext), ?_, ⟨_, hinsert, hnext⟩, ?_, fun j hj ↦ ?_⟩
  · rw [Mm.bindHeapPage, pmmAllocPage]
    simp only [halloc, if_neg hne]
    exact hmap
  · rw [show supplyNext.pmm = pmm from hsame]
    exact hnextTaken
  · rcases Nat.lt_or_ge j i with hlt | hge
    · have hother := toNat_pageFrom_heap (show j < 1024 by omega)
      exact hupdate.kept kernelPml4 rfl _ (virtualPage_ne (by omega) (by omega) (by omega)) _
        (hbound j hlt)
    · obtain rfl : j = i := by omega
      rw [← htaken.base_eq]
      exact hupdate.self

/-- The second loop panics when the region has no page left. -/
theorem bindHeapPage_exhausted {count : ℕ} {supply : TableSupply}
    (htaken : PagesTaken start.pmm count supply.pmm)
    (hcount : start.pmm.pmmTotalPages.toNat ≤ count) (i : ℕ) :
    bindHeapPage kernelPml4 i (memory, supply) = none := by
  rw [bindHeapPage, pmmAllocPage]
  rcases htaken.ready.pmmAlloc_cases with ⟨hnull, -⟩ | ⟨page, _, -, -, htook⟩
  · simp only [hnull, ↓reduceIte]
  · obtain ⟨number, hge, hlt, -⟩ := htaken.freePage_iff.mp htook.free
    rw [htaken.total_eq] at hlt
    omega

/-- The second loop runs on the pool, as far as one follows it. Assumes: the region has the heap's
1024 pages. -/
theorem PoolSuffices.mapHeap (hsuffices : PoolSuffices start allowed)
    (htotal : 1024 ≤ start.pmm.pmmTotalPages.toNat) {middle : Memory × TableSupply}
    (hmiddle : HeapTaken kernelPml4 start allowed 0 middle.1 middle.2) {count : ℕ}
    (hcount : count ≤ 1024) :
    ∃ last, countedLoop (Mm.bindHeapPage kernelPml4) count middle = some last ∧
      HeapTaken kernelPml4 start allowed count last.1 last.2 := by
  refine countedLoop_total
    (motive := fun (i : ℕ) (state : Memory × TableSupply) ↦
      HeapTaken kernelPml4 start allowed i state.1 state.2) hmiddle ?_
  rintro i hi ⟨memory, supply⟩ - hstate
  exact hsuffices.bindHeapPage (by omega) hstate (by omega)

/-- When the second loop returns, it has bound the heap to the first 1024 pages. -/
theorem PoolSuffices.heapTaken (hsuffices : PoolSuffices start allowed)
    {middle last : Memory × TableSupply}
    (hmiddle : HeapTaken kernelPml4 start allowed 0 middle.1 middle.2)
    (hloop : countedLoop (Mm.bindHeapPage kernelPml4) 1024 middle = some last) :
    HeapTaken kernelPml4 start allowed 1024 last.1 last.2 := by
  refine countedLoop_rule
    (motive := fun (i : ℕ) (state : Memory × TableSupply) ↦
      HeapTaken kernelPml4 start allowed i state.1 state.2) hmiddle ?_ hloop
  rintro i hi ⟨memory, supply⟩ next - hstate hbody
  have hstate : HeapTaken kernelPml4 start allowed i memory supply := hstate
  rcases Nat.lt_or_ge i start.pmm.pmmTotalPages.toNat with hlt | hge
  · obtain ⟨after, hafter, htaken⟩ := hsuffices.bindHeapPage hi hstate hlt
    rw [hbody, Option.some.injEq] at hafter
    rw [hafter]
    exact htaken
  · rw [bindHeapPage_exhausted hstate.taken hge] at hbody
    cases hbody

/-- The state between the loops. -/
theorem PoolSuffices.window_heapTaken (hsuffices : PoolSuffices start allowed)
    (hmapped : PoolMapped kernelPml4 start ∅ memory start)
    (htaken : PagesTaken start.pmm 0 start.pmm) :
    ∃ middle, Mm.mapWindow kernelPml4 start.pmm.pmmTotalPages.toNat (memory, start) = some middle ∧
      HeapTaken kernelPml4 start allowed 0 middle.1 middle.2 := by
  obtain ⟨middle, hwindow, hpool, hpmm⟩ := hsuffices.mapWindow hmapped (le_refl _)
  refine ⟨middle, hwindow, hpool, ?_, fun j hj ↦ absurd hj (Nat.not_lt_zero j)⟩
  rw [hpmm]
  exact htaken

/-- When `vmm_init` returns, its tables came from the pool and the heap has the first 1024 pages. -/
theorem PoolSuffices.vmmInit_heapTaken (hsuffices : PoolSuffices start allowed)
    (hmapped : PoolMapped kernelPml4 start ∅ memory start)
    (htaken : PagesTaken start.pmm 0 start.pmm) {next : Memory} {supplyNext : TableSupply}
    (hinit : vmmInit kernelPml4 (memory, start) = some (next, supplyNext)) :
    HeapTaken kernelPml4 start allowed 1024 next supplyNext := by
  obtain ⟨middle, hwindow, hmiddle⟩ := hsuffices.window_heapTaken hmapped htaken
  rw [vmmInit, hmapped.spaces.ready.region.pageCount_eq, pageCount_heap, hwindow,
    Option.bind_some] at hinit
  exact hsuffices.heapTaken hmiddle hinit

/-- `vmm_init` from the pool alone returns, and binds the heap to the first 1024 pages. -/
theorem vmmInit_pool (hsuffices : PoolSuffices start allowed)
    (htotal : 1024 ≤ start.pmm.pmmTotalPages.toNat)
    (hmapped : PoolMapped kernelPml4 start ∅ memory start)
    (htaken : PagesTaken start.pmm 0 start.pmm) :
    ∃ next supplyNext, vmmInit kernelPml4 (memory, start) = some (next, supplyNext) ∧
      KernelReady kernelPml4 start next supplyNext ∧
        HeapTaken kernelPml4 start allowed 1024 next supplyNext := by
  obtain ⟨middle, hwindow, hmiddle⟩ := hsuffices.window_heapTaken hmapped htaken
  obtain ⟨last, hheap, hlast⟩ := hsuffices.mapHeap htotal hmiddle (le_refl 1024)
  have hinit : vmmInit kernelPml4 (memory, start) = some (last.1, last.2) := by
    rw [vmmInit, hmapped.spaces.ready.region.pageCount_eq, pageCount_heap, hwindow,
      Option.bind_some, hheap]
  have hregion := hsuffices.region_end
  exact ⟨last.1, last.2, hinit, vmmInit_ready hmapped.toKernelMapped (by omega)
    (hmapped.toKernelMapped.cleanWindow hregion) hinit, hlast⟩

end Loops

/-! ### From the boot page tables -/

/-- The state `vmm_init` starts in: the boot page tables, `pt_pool` unused, and the region that
`pmm_init` was given. -/
def bootState (layout : BootLayout) (memory : Memory) (before : Pmm) (memBase memSize : Word) :
    Memory × TableSupply :=
  (setupPaging layout memory, ⟨layout.ptPool, 0#64, pmmInit before memBase memSize⟩)

/-- A layout of the kernel image. -/
def BootLayout.low : BootLayout where
  pml4Table := 0x110000#64
  ptPool := 0x120000#64
  tables_mod := by decide
  tables_end := by decide
  pool_mod := by decide
  pool_end := by decide
  disjoint := by decide

section Boot

variable {layout : BootLayout} {memory : Memory} {before : Pmm} {memBase memSize : Word}

theorem regionReady_pmmInit (before : Pmm) (hbase : 0x200000 ≤ (regionBase memBase).toNat)
    (hfits : (regionBase memBase).toNat + regionPages memSize * 4096 ≤ 2 ^ 52) :
    RegionReady (pmmInit before memBase memSize) := by
  refine ⟨(PmmInvariant.init before memBase memSize).toScanReady,
    pmmBase_pmmInit_mod before memBase memSize, hbase, ?_⟩
  rw [toNat_totalPages_pmmInit]
  exact hfits

/-- The address space `vmm_init` starts with, and its first page directory. -/
theorem spaces_boot (hbss : BssCleared layout memory)
    (hregion : RegionReady (pmmInit before memBase memSize)) :
    Spaces (fun root ↦ root = layout.pml4Table)
        (bootState layout memory before memBase memSize).1
        (bootState layout memory before memBase memSize).2 ∧
      tableAt (bootState layout memory before memBase memSize).1 layout.pml4Table [0#9, 0#9] =
        some (layout.table 2) := by
  have hspaces := spaces_setupPaging layout hbss hregion
  have hpd := tableAt_setupPaging layout hbss [0#9, 0#9] (by decide)
  simp only [bootState]
  exact ⟨hspaces, hpd.trans (if_pos rfl)⟩

/-- `vmm_init` starts with the pool unused. -/
theorem poolMapped_boot (hbss : BssCleared layout memory)
    (hregion : RegionReady (pmmInit before memBase memSize)) :
    PoolMapped layout.pml4Table (bootState layout memory before memBase memSize).2 ∅
      (bootState layout memory before memBase memSize).1
      (bootState layout memory before memBase memSize).2 := by
  have hmapped := kernelMapped_boot layout hbss hregion
  have hunused : (0#64 : Word).toNat ≤ 4096 * (∅ : Finset ℕ).card := by simp
  simp only [bootState]
  refine ⟨hmapped, hunused, by simp, ?_⟩
  intro table htable
  obtain ⟨level, hlevel, rfl⟩ := table_of_setupPaging layout hbss htable
  have hend := layout.tables_end
  rw [layout.toNat_table hlevel]
  omega

/-- A region below 1 GiB and the heap lie in a range of at most 64 chunks. -/
theorem poolSuffices_Icc {start : TableSupply} {first last : ℕ} (hcount : last + 1 - first ≤ 64)
    (hlast : last < 512) (hbase : first * 2 ^ 21 ≤ start.pmm.pmmBase.toNat)
    (hend : start.pmm.pmmBase.toNat + start.pmm.pmmTotalPages.toNat * 4096 ≤ (last + 1) * 2 ^ 21)
    (hheap : first ≤ 2 ∧ 3 ≤ last) : PoolSuffices start (Finset.Icc first last) := by
  refine ⟨by omega, by rw [Nat.card_Icc]; exact hcount, fun i hi ↦ ?_, ?_⟩
  · have haddress : (pageFrom start.pmm.pmmBase i).toNat = start.pmm.pmmBase.toNat + i * 4096 :=
      toNat_pageFrom (by omega)
    rw [Finset.mem_Icc, chunkOf, haddress]
    omega
  · rw [Finset.mem_Icc, Finset.mem_Icc]
    omega

end Boot

/-- A machine with 8 MB from 8 MB on, right after boot. -/
def largeBoot : Memory × TableSupply :=
  bootState BootLayout.low (fun _ ↦ 0#8) Pmm.bss 0x800000#64 0x800000#64

theorem regionReady_largeBoot : RegionReady (pmmInit Pmm.bss 0x800000#64 0x800000#64) :=
  regionReady_pmmInit Pmm.bss (by decide) (by decide)

/-- `vmm_init` returns on it, with at most six pages of the pool in use. -/
theorem vmmInit_largeBoot : ∃ memory supply,
    vmmInit BootLayout.low.pml4Table largeBoot = some (memory, supply) ∧
      KernelReady BootLayout.low.pml4Table largeBoot.2 memory supply ∧
        PagesTaken largeBoot.2.pmm 1024 supply.pmm ∧ supply.ptPoolUsed.toNat ≤ 6 * 4096 ∧
          supply.pmm.pmmTotalPages.toNat = 2048 ∧
            CleanWindow BootLayout.low.pml4Table largeBoot := by
  have hbss : BssCleared BootLayout.low fun _ ↦ 0#8 := fun _ _ _ ↦ rfl
  have htotal : largeBoot.2.pmm.pmmTotalPages.toNat = 2048 :=
    toNat_totalPages_pmmInit Pmm.bss 0x800000#64 0x800000#64
  have hbase : largeBoot.2.pmm.pmmBase.toNat = 0x800000 := by decide
  have hsuffices : PoolSuffices largeBoot.2 (Finset.Icc 2 7) :=
    poolSuffices_Icc (by decide) (by decide) (by rw [hbase]; decide)
      (by rw [hbase, htotal]; decide) (by decide)
  have hcount : 1024 ≤ largeBoot.2.pmm.pmmTotalPages.toNat :=
    le_of_le_of_eq (by decide) htotal.symm
  have hmapped : PoolMapped BootLayout.low.pml4Table largeBoot.2 ∅ largeBoot.1 largeBoot.2 := by
    have hboot := poolMapped_boot hbss regionReady_largeBoot
    simpa only [largeBoot] using hboot
  have htaken : PagesTaken largeBoot.2.pmm 0 largeBoot.2.pmm := by
    have hpages := pagesTaken_pmmInit Pmm.bss 0x800000#64 0x800000#64 regionReady_largeBoot
    simpa only [largeBoot, bootState] using hpages
  obtain ⟨memory, supply, hinit, hready, ⟨touched, hsubset, hpool⟩, hpages, -⟩ :=
    vmmInit_pool hsuffices hcount hmapped htaken
  have hcard := Finset.card_le_card hsubset
  have hused := hpool.used
  rw [Nat.card_Icc] at hcard
  have hclean := hmapped.toKernelMapped.cleanWindow (by rw [hbase, htotal]; decide)
  rw [Prod.mk.eta] at hinit hclean
  refine ⟨memory, supply, hinit, hready, hpages, by omega, ?_, hclean⟩
  rw [hpages.total_eq, htotal]

/-- There the first pages that are handed out after it are 0xC00000 and 0xC01000, and the first can
be mapped at 1 GB with tables of the pool. -/
theorem largeBoot_maps : ∃ memory supply first second next supplyNext,
    vmmInit BootLayout.low.pml4Table largeBoot = some (memory, supply) ∧
      pmmAlloc supply.pmm = (0xC00000#64, first) ∧ pmmAlloc first = (0xC01000#64, second) ∧
        SupplyReady { supply with pmm := first } ∧ supply.ptPoolUsed.toNat ≤ 6 * 4096 ∧
          vmmMap allocTable BootLayout.low.pml4Table 0x40000000#64 0xC00000#64 3#64 memory
              { supply with pmm := first } = some (next, supplyNext) ∧ supplyNext.pmm = first := by
  obtain ⟨memory, supply, hinit, hready, hpages, hused, htotal, -⟩ := vmmInit_largeBoot
  have hbase : supply.pmm.pmmBase = 0x800000#64 := by
    rw [hpages.base_eq]
    decide
  obtain ⟨first, halloc, hnext, htook⟩ :=
    hpages.pmmAlloc (show 1024 < supply.pmm.pmmTotalPages.toNat by omega)
  obtain ⟨second, hsecond, -, -⟩ :=
    hnext.pmmAlloc (show 1025 < first.pmmTotalPages.toNat by
      rw [hnext.total_eq, ← hpages.total_eq]
      omega)
  have hfirstBase : first.pmmBase = 0x800000#64 := htook.base_eq.trans hbase
  rw [hbase, show pageFrom 0x800000#64 1024 = 0xC00000#64 from by decide] at halloc htook
  rw [hfirstBase, show pageFrom 0x800000#64 1025 = 0xC01000#64 from by decide] at hsecond
  have hsupply := (htook.supply hready.spaces.ready).ready
  obtain ⟨next, supplyNext, hmap, hpool⟩ := vmmMap_pool BootLayout.low.pml4Table 0x40000000#64
    0xC00000#64 3#64 memory hsupply (show supply.ptPoolUsed.toNat + 3 * 4096 ≤ 262144 by omega)
  exact ⟨memory, supply, first, second, next, supplyNext, hinit, halloc, hsecond, hsupply, hused,
    hmap, hpool.pmm_eq⟩

end Colix.Mm
