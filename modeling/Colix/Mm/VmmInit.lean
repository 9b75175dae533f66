import Colix.Foundation.CountedLoop
import Colix.Mm.Boot
import Colix.Mm.Heap

/-!
# The kernel's address space

`vmm_init`: one loop maps the region of the page allocator to itself, a second binds the heap's
addresses to pages it allocates. `KernelMapped` is what both keep, from the boot page tables on, and
`vmmInit_ready` what they leave: every page of the region is mapped to itself, except where the
second loop came after the first.
-/

set_option autoImplicit false
set_option relaxedAutoImplicit false

namespace Colix.Mm

open Foundation

/-! ### The source -/

/-- The number of iterations of `for (va = first; va < last; va += PAGE_SIZE)`, for bounds a whole
number of pages apart. -/
def pageCount (first last : Word) : ℕ :=
  if first < last then ((last - first) / pageSize).toNat else 0

/-- The value of `va` in an iteration. -/
def pageFrom (first : Word) (i : ℕ) : Word :=
  first + BitVec.ofNat 64 i * pageSize

/-- The body of the first loop of `vmm_init`. -/
def mapWindowPage (kernelPml4 base : Word) (i : ℕ) (state : Memory × TableSupply) :
    Option (Memory × TableSupply) :=
  vmmMap allocTable kernelPml4 (pageFrom base i) (pageFrom base i) (ptePresent ||| pteWritable)
    state.1 state.2

/-- The body of the second loop of `vmm_init`. -/
def bindHeapPage (kernelPml4 : Word) (i : ℕ) (state : Memory × TableSupply) :
    Option (Memory × TableSupply) :=
  match pmmAllocPage state.2.pmm with
  | (pa, pmm) =>
    if pa = 0#64 then none
    else
      vmmMap allocTable kernelPml4 (pageFrom kheapStart i) pa (ptePresent ||| pteWritable) state.1
        { state.2 with pmm := pmm }

/-- The first loop of `vmm_init`, over its first `count` pages. -/
def mapWindow (kernelPml4 : Word) (count : ℕ) (state : Memory × TableSupply) :
    Option (Memory × TableSupply) :=
  countedLoop (mapWindowPage kernelPml4 state.2.pmm.pmmBase) count state

/-- `vmm_init`, with `kernel_pml4` from CR3. `none` is a panic. -/
def vmmInit (kernelPml4 : Word) (state : Memory × TableSupply) : Option (Memory × TableSupply) :=
  let base := state.2.pmm.pmmBase
  let pmmEnd := base + state.2.pmm.pmmTotalPages * pageSize
  (mapWindow kernelPml4 (pageCount base pmmEnd) state).bind
    (countedLoop (bindHeapPage kernelPml4) (pageCount kheapStart (kheapStart + kheapSize)))

/-- The directories that the first loop of `vmm_init` makes come zeroed. -/
def CleanWindow (kernelPml4 : Word) (state : Memory × TableSupply) : Prop :=
  ∀ i < state.2.pmm.pmmTotalPages.toNat, ∀ reached,
    mapWindow kernelPml4 i state = some reached →
      CleanDirectories reached.1 reached.2 kernelPml4 (pageFrom state.2.pmm.pmmBase i)

/-! ### Pages and virtual pages -/

/-- A page of the heap's addresses. -/
def InHeap (page : Word) : Prop :=
  0x400000 ≤ page.toNat ∧ page.toNat < 0x800000

theorem toNat_virtualPage (virt : Word) :
    (virtualPage virt).toNat = virt.toNat / 4096 % 2 ^ 36 := by
  rw [virtualPage, BitVec.extractLsb'_toNat, Nat.shiftRight_eq_div_pow]

/-- An address and its page are in one virtual page. -/
theorem virtualPage_pageOf (virt : Word) : virtualPage (pageOf virt) = virtualPage virt := by
  apply BitVec.eq_of_toNat_eq
  rw [toNat_virtualPage, toNat_virtualPage, toNat_pageOf]
  omega

/-- Pages below 2^48 have virtual pages of their own. -/
theorem virtualPage_ne {first second : Word} (hfirst : first.toNat < 2 ^ 48)
    (hsecond : second.toNat < 2 ^ 48) (hne : first.toNat / 4096 ≠ second.toNat / 4096) :
    virtualPage first ≠ virtualPage second := by
  intro heq
  have hnat := congrArg BitVec.toNat heq
  rw [toNat_virtualPage, toNat_virtualPage] at hnat
  omega

/-- The address of an iteration, when the pages do not wrap. -/
theorem toNat_pageFrom {first : Word} {i : ℕ} (hfits : first.toNat + i * 4096 < 2 ^ 64) :
    (pageFrom first i).toNat = first.toNat + i * 4096 := by
  have hi : (BitVec.ofNat 64 i : Word).toNat = i := by
    rw [BitVec.toNat_ofNat, Nat.mod_eq_of_lt (by omega)]
  rw [pageFrom, BitVec.toNat_add, BitVec.toNat_mul, hi, BitVec.toNat_ofNat,
    Nat.mod_eq_of_lt (by omega : 4096 < 2 ^ 64), Nat.mod_eq_of_lt (by omega : i * 4096 < 2 ^ 64),
    Nat.mod_eq_of_lt hfits]

theorem toNat_pageFrom_heap {i : ℕ} (hi : i < 1024) :
    (pageFrom kheapStart i).toNat = 0x400000 + i * 4096 :=
  toNat_pageFrom (by rw [BitVec.toNat_ofNat]; omega)

theorem pageCount_heap : pageCount kheapStart (kheapStart + kheapSize) = 1024 := by
  decide

/-- The first loop visits every page of the region. -/
theorem RegionReady.pageCount_eq {s : Pmm} (hready : RegionReady s) :
    pageCount s.pmmBase (s.pmmBase + s.pmmTotalPages * pageSize) = s.pmmTotalPages.toNat := by
  have hfits := hready.fits
  have hmul : (s.pmmTotalPages * pageSize).toNat = s.pmmTotalPages.toNat * 4096 := by
    rw [BitVec.toNat_mul, BitVec.toNat_ofNat, Nat.mod_eq_of_lt (by omega : 4096 < 2 ^ 64),
      Nat.mod_eq_of_lt (by omega)]
  have hend : (s.pmmBase + s.pmmTotalPages * pageSize).toNat =
      s.pmmBase.toNat + s.pmmTotalPages.toNat * 4096 := by
    rw [BitVec.toNat_add, hmul, Nat.mod_eq_of_lt (by omega)]
  rw [pageCount]
  split_ifs with hlt
  · rw [BitVec.toNat_udiv, BitVec.toNat_sub_of_le (BitVec.le_of_lt hlt), hend, BitVec.toNat_ofNat,
      Nat.mod_eq_of_lt (by omega : 4096 < 2 ^ 64)]
    omega
  · rw [BitVec.lt_def, hend] at hlt
    omega

/-! ### What the loops keep -/

/-- The kernel's address space during `vmm_init`: its tables were not available when it started, or
come from what was, and the first 2 MiB are mapped to themselves. -/
structure KernelMapped (kernelPml4 : Word) (start : TableSupply) (memory : Memory)
    (supply : TableSupply) : Prop where
  spaces : Spaces (fun root ↦ root = kernelPml4) memory supply
  source : SameSource start supply
  available : ∀ page, Available supply page → Available start page
  tables : ∀ table, TableOf memory kernelPml4 table →
    table.toNat < 0x200000 ∨ FreePage start.pmm table
  low : ∀ page, PageAligned page → page.toNat < 0x200000 →
    pageMap memory kernelPml4 (virtualPage page) = some page

/-- `vmm_init` starts so, from the boot page tables. -/
theorem kernelMapped_boot (layout : BootLayout) {memory : Memory} {pmm : Pmm}
    (hbss : BssCleared layout memory) (hregion : RegionReady pmm) :
    KernelMapped layout.pml4Table ⟨layout.ptPool, 0#64, pmm⟩ (setupPaging layout memory)
      ⟨layout.ptPool, 0#64, pmm⟩ := by
  refine ⟨spaces_setupPaging layout hbss hregion, SameSource.refl _, fun _ hpage ↦ hpage, ?_,
    fun _ ↦ pageMap_setupPaging layout hbss⟩
  intro table htable
  obtain ⟨level, hlevel, rfl⟩ := table_of_setupPaging layout hbss htable
  have hend := layout.tables_end
  rw [layout.toNat_table hlevel]
  omega

section Loops

variable {kernelPml4 virt phys : Word} {start supply supplyNext : TableSupply}
  {memory next : Memory}

/-- A page at or above 2 MiB that can be handed out was free at the start. -/
theorem KernelMapped.free_of_available (hmapped : KernelMapped kernelPml4 start memory supply)
    {page : Word} (hpage : Available supply page) :
    page.toNat < 0x200000 ∨ FreePage start.pmm page := by
  rcases hmapped.available page hpage with ⟨number, -, hlt, hnumber⟩ | hfree
  · have hend := hmapped.spaces.ready.pool_end
    have hpool := hmapped.source.pool_eq
    rw [hpool] at hend
    omega
  · exact Or.inr hfree

/-- The directories of the first 1 GiB are there from the start. -/
theorem KernelMapped.missingDirectories_eq (hmapped : KernelMapped kernelPml4 start memory supply)
    (hvirt : virt.toNat < 2 ^ 30) : missingDirectories memory kernelPml4 virt = 0 := by
  have hpml4 : pml4Idx virt = pml4Idx 0#64 := by
    apply BitVec.eq_of_toNat_eq
    rw [toNat_pml4Idx, toNat_pml4Idx, BitVec.toNat_ofNat]
    omega
  have hpdp : pdpIdx virt = pdpIdx 0#64 := by
    apply BitVec.eq_of_toNat_eq
    rw [toNat_pdpIdx, toNat_pdpIdx, BitVec.toNat_ofNat]
    omega
  have hlow := hmapped.low 0#64 rfl (by decide)
  rw [pageMap, ← pagePath_eq_indicesOf] at hlow
  obtain ⟨pt, hpt, -⟩ := exists_descend_of_snoc
    (show tableAt memory kernelPml4 (tablePath 0#64 ++ [ptIdx 0#64]) = some 0#64 from hlow)
  obtain ⟨pd, hpd, -⟩ := exists_descend_of_snoc
    (show tableAt memory kernelPml4 ([pml4Idx 0#64, pdpIdx 0#64] ++ [pdIdx 0#64]) =
      some pt from hpt)
  obtain ⟨pdp, hreached, -⟩ := exists_descend_of_snoc
    (show tableAt memory kernelPml4 ([pml4Idx 0#64] ++ [pdpIdx 0#64]) = some pd from hpd)
  rw [missingDirectories, hpml4, hpdp,
    show tableAt memory kernelPml4 [pml4Idx 0#64] = some pdp from hreached,
    show tableAt memory kernelPml4 [pml4Idx 0#64, pdpIdx 0#64] = some pd from hpd]

/-- So a map below 1 GiB makes no directory. -/
theorem KernelMapped.cleanDirectories (hmapped : KernelMapped kernelPml4 start memory supply)
    (hvirt : virt.toNat < 2 ^ 30) : CleanDirectories memory supply kernelPml4 virt := by
  rw [CleanDirectories, hmapped.missingDirectories_eq hvirt]
  trivial

/-- A map at or above 2 MiB keeps the kernel's address space. -/
theorem KernelMapped.map (hmapped : KernelMapped kernelPml4 start memory supply)
    (hclean : CleanDirectories memory supply kernelPml4 virt) (hvirt : virt.toNat < 2 ^ 48)
    (hlow : 0x200000 ≤ virt.toNat) (hphys : PageAligned phys) (hbound : phys.toNat < 2 ^ 52)
    (hmap : vmmMap allocTable kernelPml4 virt phys (ptePresent ||| pteWritable) memory supply =
      some (next, supplyNext)) :
    KernelMapped kernelPml4 start next supplyNext ∧
      SpaceUpdate (fun root ↦ root = kernelPml4) kernelPml4 virt (some phys) memory
        supply next supplyNext := by
  have hupdate := hmapped.spaces.map rfl hclean hmap
  rw [childOf_pageEntry (by decide), ptePhys_of_pageAligned hphys hbound] at hupdate
  refine ⟨⟨hupdate.spaces, hmapped.source.trans hupdate.source, ?_, ?_, ?_⟩, hupdate⟩
  · exact fun page hpage ↦ hmapped.available page (hupdate.available page hpage)
  · intro table htable
    rcases hupdate.tables kernelPml4 table rfl htable with hold | hpage
    · exact hmapped.tables table hold
    · exact hmapped.free_of_available hpage
  · intro page haligned hpage
    refine hupdate.kept kernelPml4 rfl _ (virtualPage_ne (by omega) hvirt (by omega)) page ?_
    exact hmapped.low page haligned hpage

/-- Taking a page from the page allocator keeps the kernel's address space, and the page is no table
and cannot be handed out again. -/
theorem KernelMapped.take (hmapped : KernelMapped kernelPml4 start memory supply) {page : Word}
    {pmm : Pmm} (htook : Took supply.pmm page pmm) :
    KernelMapped kernelPml4 start memory { supply with pmm := pmm } ∧ FreePage start.pmm page ∧
      ¬ Available { supply with pmm := pmm } page ∧ ¬ TableOf memory kernelPml4 page := by
  have hsupply := htook.supply hmapped.spaces.ready
  have hinRegion := htook.free.inRegion
  have hbase := hmapped.spaces.ready.region.base_ge
  refine ⟨⟨hmapped.spaces.take htook, ⟨hmapped.source.pool_eq,
    htook.base_eq.trans hmapped.source.base_eq, htook.total_eq.trans hmapped.source.total_eq⟩,
    fun other hother ↦ hmapped.available other (hsupply.rest other hother).1, hmapped.tables,
    hmapped.low⟩, ?_, fun hpage ↦ (hsupply.rest page hpage).2 rfl,
    fun htable ↦ hmapped.spaces.used kernelPml4 page rfl htable hsupply.available⟩
  rcases hmapped.free_of_available hsupply.available with hlow | hfree
  · omega
  · exact hfree

/-- The first loop maps each page it has visited to itself. -/
theorem KernelMapped.window (hmapped : KernelMapped kernelPml4 start memory start)
    (hbound : start.pmm.pmmBase.toNat + start.pmm.pmmTotalPages.toNat * 4096 ≤ 2 ^ 48)
    (hclean : CleanWindow kernelPml4 (memory, start)) {count : ℕ}
    (hcount : count ≤ start.pmm.pmmTotalPages.toNat)
    (hloop : mapWindow kernelPml4 count (memory, start) = some (next, supplyNext)) :
    KernelMapped kernelPml4 start next supplyNext ∧ ∀ j < count,
      pageMap next kernelPml4 (virtualPage (pageFrom start.pmm.pmmBase j)) =
        some (pageFrom start.pmm.pmmBase j) := by
  have hbase := hmapped.spaces.ready.region.base_ge
  have hmod := hmapped.spaces.ready.region.base_mod
  refine countedLoop_rule (motive := fun i state ↦
    KernelMapped kernelPml4 start state.1 state.2 ∧ ∀ j < i,
      pageMap state.1 kernelPml4 (virtualPage (pageFrom start.pmm.pmmBase j)) =
        some (pageFrom start.pmm.pmmBase j)) ⟨hmapped, fun j hj ↦ absurd hj (Nat.not_lt_zero j)⟩
    ?_ hloop
  rintro i hi state after hstate ⟨hmapped, hbefore⟩ hbody
  have haddress : (pageFrom start.pmm.pmmBase i).toNat = start.pmm.pmmBase.toNat + i * 4096 :=
    toNat_pageFrom (by omega)
  have hcleanHere : CleanDirectories state.1 state.2 kernelPml4 (pageFrom start.pmm.pmmBase i) :=
    hclean i (hi.trans_le hcount) state hstate
  have haligned : PageAligned (pageFrom start.pmm.pmmBase i) := by
    rw [PageAligned, haddress]
    omega
  replace hbody : vmmMap allocTable kernelPml4 (pageFrom start.pmm.pmmBase i)
      (pageFrom start.pmm.pmmBase i) (ptePresent ||| pteWritable) state.1 state.2 =
        some (after.1, after.2) := hbody
  obtain ⟨hafter, hupdate⟩ := hmapped.map hcleanHere (by omega) (by omega) haligned (by omega)
    hbody
  refine ⟨hafter, fun j hj ↦ ?_⟩
  rcases Nat.lt_or_ge j i with hlt | hge
  · have hother : (pageFrom start.pmm.pmmBase j).toNat = start.pmm.pmmBase.toNat + j * 4096 :=
      toNat_pageFrom (by omega)
    exact hupdate.kept kernelPml4 rfl _ (virtualPage_ne (by omega) (by omega) (by omega)) _
      (hbefore j hlt)
  · obtain rfl : j = i := by omega
    exact hupdate.self

/-- What the second loop has done after `count` pages: it bound each heap address it visited to a
page that was free, is no table and cannot be handed out again, and kept what other addresses are
mapped to. -/
structure HeapBound (kernelPml4 : Word) (start : TableSupply) (middle : Memory) (count : ℕ)
    (memory : Memory) (supply : TableSupply) : Prop where
  mapped : KernelMapped kernelPml4 start memory supply
  others : ∀ page : Word, page.toNat < 2 ^ 48 → PageAligned page →
    page.toNat < 0x400000 ∨ 0x400000 + 4096 * count ≤ page.toNat →
      ∀ phys, pageMap middle kernelPml4 (virtualPage page) = some phys →
        pageMap memory kernelPml4 (virtualPage page) = some phys
  bound : ∀ j < count, ∃ phys,
    pageMap memory kernelPml4 (virtualPage (pageFrom kheapStart j)) = some phys ∧
      FreePage start.pmm phys ∧ ¬ Available supply phys ∧ ¬ TableOf memory kernelPml4 phys

theorem KernelMapped.heap {middle : Memory} {supplyMiddle : TableSupply}
    (hmapped : KernelMapped kernelPml4 start middle supplyMiddle) {count : ℕ}
    (hcount : count ≤ 1024)
    (hloop : countedLoop (bindHeapPage kernelPml4) count (middle, supplyMiddle) =
      some (next, supplyNext)) :
    HeapBound kernelPml4 start middle count next supplyNext := by
  have hstart : HeapBound kernelPml4 start middle 0 middle supplyMiddle :=
    ⟨hmapped, fun _ _ _ _ _ hphys ↦ hphys, fun j hj ↦ absurd hj (Nat.not_lt_zero j)⟩
  refine countedLoop_rule
    (motive := fun i state ↦ HeapBound kernelPml4 start middle i state.1 state.2) hstart ?_ hloop
  intro i hi state after _ hbound hbody
  obtain ⟨memory, supply⟩ := state
  obtain ⟨after, supplyAfter⟩ := after
  obtain ⟨hmapped, hothers, hbound⟩ := hbound
  have haddress := toNat_pageFrom_heap (show i < 1024 by omega)
  rw [bindHeapPage, pmmAllocPage] at hbody
  rcases hmapped.spaces.ready.region.pmmAlloc_cases with
    ⟨hnull, -⟩ | ⟨page, pmm, halloc, hne, htook⟩
  · simp only [hnull, ↓reduceIte] at hbody
    cases hbody
  · simp only [halloc, if_neg hne] at hbody
    have hpageAligned := hmapped.spaces.ready.region.pageAligned htook.free
    have hinRegion := htook.free.inRegion
    have hfits := hmapped.spaces.ready.region.fits
    have hsupply := htook.supply hmapped.spaces.ready
    obtain ⟨htaken, hfree, hgone, hnotTable⟩ := hmapped.take htook
    obtain ⟨hafter, hupdate⟩ := htaken.map (htaken.cleanDirectories (by omega))
      (by omega) (by omega) hpageAligned (by omega) hbody
    have hkept := hupdate.kept kernelPml4 rfl
    refine ⟨hafter, ?_, ?_⟩
    · intro other hother haligned hrange phys hphys
      have hearlier : other.toNat < 0x400000 ∨ 0x400000 + 4096 * i ≤ other.toNat :=
        hrange.imp_right fun hge ↦ by omega
      have hmod : other.toNat % 4096 = 0 := haligned
      exact hkept _ (virtualPage_ne hother (by omega) (by omega)) phys
        (hothers other hother haligned hearlier phys hphys)
    · intro j hj
      rcases Nat.lt_or_ge j i with hlt | hge
      · obtain ⟨phys, hphys, hstart, hheld, htable⟩ := hbound j hlt
        have hother := toNat_pageFrom_heap (show j < 1024 by omega)
        refine ⟨phys, hkept _ (virtualPage_ne (by omega) (by omega) (by omega)) phys hphys, hstart,
          fun hpage ↦ hheld (hsupply.rest phys (hupdate.available phys hpage)).1, fun hnew ↦ ?_⟩
        rcases hupdate.tables kernelPml4 phys rfl hnew with hold | hpage
        · exact htable hold
        · exact hheld (hsupply.rest phys hpage).1
      · obtain rfl : j = i := by omega
        refine ⟨page, hupdate.self, hfree, fun hpage ↦ hgone (hupdate.available page hpage),
          fun hnew ↦ ?_⟩
        rcases hupdate.tables kernelPml4 page rfl hnew with hold | hpage
        · exact hnotTable hold
        · exact hgone hpage

/-! ### After `vmm_init` -/

/-- The kernel's address space after `vmm_init`. -/
structure KernelReady (kernelPml4 : Word) (start : TableSupply) (memory : Memory)
    (supply : TableSupply) : Prop extends KernelMapped kernelPml4 start memory supply where
  /-- A page of the region is mapped to itself, unless its address is one of the heap's. -/
  window : ∀ page : Word, PageAligned page → start.pmm.pmmBase.toNat ≤ page.toNat →
    page.toNat < start.pmm.pmmBase.toNat + start.pmm.pmmTotalPages.toNat * 4096 → ¬ InHeap page →
      pageMap memory kernelPml4 (virtualPage page) = some page
  /-- An address of the heap is bound to a page that is in use, and no table. -/
  heap : ∀ page : Word, PageAligned page → InHeap page → ∃ phys,
    pageMap memory kernelPml4 (virtualPage page) = some phys ∧ FreePage start.pmm phys ∧
      ¬ Available supply phys ∧ ¬ TableOf memory kernelPml4 phys

/-- A page between two page boundaries is one of the pages from the first on. -/
theorem exists_pageFrom {first page : Word} {count : ℕ} (hfirst : PageAligned first)
    (hpage : PageAligned page) (hge : first.toNat ≤ page.toNat)
    (hlt : page.toNat < first.toNat + count * 4096) :
    ∃ i < count, page = pageFrom first i := by
  rw [PageAligned] at hfirst hpage
  have hbound := page.isLt
  refine ⟨(page.toNat - first.toNat) / 4096, by omega, BitVec.eq_of_toNat_eq ?_⟩
  rw [toNat_pageFrom (by omega)]
  omega

/-- What `vmm_init` leaves. Assumes: the region lies below 2^48, and the directories that the first
loop makes come zeroed. -/
theorem vmmInit_ready (hmapped : KernelMapped kernelPml4 start memory start)
    (hbound : start.pmm.pmmBase.toNat + start.pmm.pmmTotalPages.toNat * 4096 ≤ 2 ^ 48)
    (hclean : CleanWindow kernelPml4 (memory, start))
    (hinit : vmmInit kernelPml4 (memory, start) = some (next, supplyNext)) :
    KernelReady kernelPml4 start next supplyNext := by
  rw [vmmInit, hmapped.spaces.ready.region.pageCount_eq, pageCount_heap,
    Option.bind_eq_some_iff] at hinit
  obtain ⟨⟨middle, supplyMiddle⟩, hwindow, hheap⟩ := hinit
  obtain ⟨hmiddle, hself⟩ := hmapped.window hbound hclean (le_refl _) hwindow
  obtain ⟨hnext, hothers, hbind⟩ := hmiddle.heap (le_refl 1024) hheap
  refine ⟨hnext, fun page haligned hge hlt hnot ↦ ?_, fun page haligned hin ↦ ?_⟩
  · refine hothers page (by omega) haligned ?_ page ?_
    · rw [InHeap] at hnot
      omega
    · obtain ⟨i, hi, rfl⟩ := exists_pageFrom hmapped.spaces.ready.region.base_mod haligned hge hlt
      exact hself i hi
  · have hend : page.toNat < kheapStart.toNat + 1024 * 4096 := hin.2
    obtain ⟨i, hi, rfl⟩ :=
      exists_pageFrom (show PageAligned kheapStart from rfl) haligned hin.1 hend
    exact hbind i hi

/-- The second loop makes no directory when the first page directory is there. -/
theorem spaces_bindHeapPage (hspaces : Spaces (fun root ↦ root = kernelPml4) memory supply)
    (hsource : SameSource start supply) {pd : Word}
    (hpd : tableAt memory kernelPml4 [0#9, 0#9] = some pd) {i : ℕ} (hi : i < 1024)
    {after : Memory × TableSupply}
    (hbody : bindHeapPage kernelPml4 i (memory, supply) = some after) :
    Spaces (fun root ↦ root = kernelPml4) after.1 after.2 ∧ SameSource start after.2 ∧
      tableAt after.1 kernelPml4 [0#9, 0#9] = some pd := by
  have haddress := toNat_pageFrom_heap hi
  have hpml4 : pml4Idx (pageFrom kheapStart i) = 0#9 := by
    apply BitVec.eq_of_toNat_eq
    rw [toNat_pml4Idx, haddress, BitVec.toNat_ofNat]
    omega
  have hpdp : pdpIdx (pageFrom kheapStart i) = 0#9 := by
    apply BitVec.eq_of_toNat_eq
    rw [toNat_pdpIdx, haddress, BitVec.toNat_ofNat]
    omega
  obtain ⟨pdp, hreach, -⟩ := exists_descend_of_snoc
    (show tableAt memory kernelPml4 ([0#9] ++ [0#9]) = some pd from hpd)
  have hmissing : missingDirectories memory kernelPml4 (pageFrom kheapStart i) = 0 := by
    rw [missingDirectories, hpml4, hpdp,
      show tableAt memory kernelPml4 [0#9] = some pdp from hreach,
      hpd]
  rw [bindHeapPage, pmmAllocPage] at hbody
  rcases hspaces.ready.region.pmmAlloc_cases with ⟨hnull, -⟩ | ⟨page, pmm, halloc, hne, htook⟩
  · simp only [hnull, ↓reduceIte] at hbody
    cases hbody
  · simp only [halloc, if_neg hne] at hbody
    have hclean : CleanDirectories memory { supply with pmm := pmm } kernelPml4
        (pageFrom kheapStart i) := by
      rw [CleanDirectories, hmissing]
      trivial
    have hupdate := (hspaces.take htook).map rfl hclean hbody
    have htaken : SameSource start { supply with pmm := pmm } :=
      ⟨hsource.pool_eq, htook.base_eq.trans hsource.base_eq, htook.total_eq.trans hsource.total_eq⟩
    exact ⟨hupdate.spaces, htaken.trans hupdate.source,
      hupdate.keptTables kernelPml4 rfl _ (by simp) pd hpd⟩

/-- `vmm_init` keeps the kernel's address space, wherever the region lies. Assumes: the first page
directory is there, and the directories that the first loop makes come zeroed. -/
theorem spaces_vmmInit (hspaces : Spaces (fun root ↦ root = kernelPml4) memory start) {pd : Word}
    (hpd : tableAt memory kernelPml4 [0#9, 0#9] = some pd)
    (hclean : CleanWindow kernelPml4 (memory, start))
    (hinit : vmmInit kernelPml4 (memory, start) = some (next, supplyNext)) :
    Spaces (fun root ↦ root = kernelPml4) next supplyNext ∧ SameSource start supplyNext := by
  rw [vmmInit, hspaces.ready.region.pageCount_eq, pageCount_heap, Option.bind_eq_some_iff] at hinit
  obtain ⟨⟨middle, supplyMiddle⟩, hwindow, hheap⟩ := hinit
  have hstart : Spaces (fun root ↦ root = kernelPml4) (memory, start).1 (memory, start).2 ∧
      SameSource start (memory, start).2 ∧
        tableAt (memory, start).1 kernelPml4 [0#9, 0#9] = some pd :=
    ⟨hspaces, SameSource.refl start, hpd⟩
  obtain ⟨hmiddle, hsource, hmiddlePd⟩ := countedLoop_rule (motive := fun (_ : ℕ) state ↦
    Spaces (fun root ↦ root = kernelPml4) state.1 state.2 ∧ SameSource start state.2 ∧
      tableAt state.1 kernelPml4 [0#9, 0#9] = some pd) hstart
    (by
      rintro i hi state after hstate ⟨hstateSpaces, hstateSource, hstatePd⟩ hbody
      have hupdate := hstateSpaces.map rfl (hclean i hi state hstate) hbody
      exact ⟨hupdate.spaces, hstateSource.trans hupdate.source,
        hupdate.keptTables kernelPml4 rfl _ (by simp) pd hstatePd⟩) hwindow
  have hheapStart : Spaces (fun root ↦ root = kernelPml4) (middle, supplyMiddle).1
      (middle, supplyMiddle).2 ∧ SameSource start (middle, supplyMiddle).2 ∧
        tableAt (middle, supplyMiddle).1 kernelPml4 [0#9, 0#9] = some pd :=
    ⟨hmiddle, hsource, hmiddlePd⟩
  obtain ⟨hnext, hnextSource, -⟩ := countedLoop_rule (motive := fun (_ : ℕ) state ↦
    Spaces (fun root ↦ root = kernelPml4) state.1 state.2 ∧ SameSource start state.2 ∧
      tableAt state.1 kernelPml4 [0#9, 0#9] = some pd) hheapStart
    (by
      rintro i hi ⟨state, supply⟩ after - ⟨hstateSpaces, hstateSource, hstatePd⟩ hbody
      exact spaces_bindHeapPage hstateSpaces hstateSource hstatePd hi hbody) hheap
  exact ⟨hnext, hnextSource⟩

end Loops

end Colix.Mm
