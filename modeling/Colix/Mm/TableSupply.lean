import Colix.Mm.PageTables
import Colix.Mm.Pmm

/-!
# Where page tables come from

`alloc_table` of `kernel/mm/vmm.c`: pages of the static pool `pt_pool`, cleared, and when the pool
is used up pages of the page allocator, as they are. `Available` names the pages that can still be
handed out, and `Allocated` says what each call does to them.

A page of the page allocator that becomes a directory has entries of whatever was in it;
`CleanTables` says that the next tables come zeroed.
-/

set_option autoImplicit false
set_option relaxedAutoImplicit false

namespace Colix.Mm

open Foundation

/-! ### The source -/

/-- `sizeof(pt_pool)`: 64 pages. -/
abbrev ptPoolSize : Word := 262144#64

/-- What tables are made from: `pt_pool`, `pt_pool_used`, and the page allocator. -/
structure TableSupply where
  ptPool : Word
  ptPoolUsed : Word
  pmm : Pmm

/-- `alloc_table`. `none` is its panic. -/
def allocTable (memory : Memory) (s : TableSupply) : Option (Word × Memory × TableSupply) :=
  if s.ptPoolUsed + pageSize ≤ ptPoolSize then
    let t := s.ptPool + s.ptPoolUsed
    some (t, storeWords memory t.toNat (List.replicate 512 0#64),
      { s with ptPoolUsed := s.ptPoolUsed + pageSize })
  else
    match pmmAlloc s.pmm with
    | (t, pmm) => if t = 0#64 then none else some (t, memory, { s with pmm := pmm })

/-! ### Pages of the page allocator -/

/-- A page of the region that is not in use. -/
def FreePage (s : Pmm) (page : Word) : Prop :=
  ∃ number < s.pmmTotalPages.toNat, page.toNat = s.pmmBase.toNat + number * 4096 ∧
    bitTest s.bitmap number = false

/-- The region starts at a page above the kernel image and ends below 2^52. -/
structure RegionReady (s : Pmm) : Prop extends ScanReady s where
  base_mod : s.pmmBase.toNat % 4096 = 0
  base_ge : 0x200000 ≤ s.pmmBase.toNat
  fits : s.pmmBase.toNat + s.pmmTotalPages.toNat * 4096 ≤ 2 ^ 52

variable {s next : Pmm} {page : Word}

/-- A free page is a page of the region. -/
theorem FreePage.inRegion (hfree : FreePage s page) : s.pmmBase.toNat ≤ page.toNat ∧
    page.toNat < s.pmmBase.toNat + s.pmmTotalPages.toNat * 4096 := by
  obtain ⟨number, hnumber, haddress, -⟩ := hfree
  omega

theorem RegionReady.pageAligned (hready : RegionReady s) (hfree : FreePage s page) :
    PageAligned page := by
  obtain ⟨number, -, haddress, -⟩ := hfree
  have hbase := hready.base_mod
  rw [PageAligned, haddress]
  omega

/-- The effect of taking a page. -/
structure Took (s : Pmm) (page : Word) (next : Pmm) : Prop where
  ready : RegionReady next
  free : FreePage s page
  rest : ∀ other, FreePage next other ↔ FreePage s other ∧ other ≠ page
  base_eq : next.pmmBase = s.pmmBase
  total_eq : next.pmmTotalPages = s.pmmTotalPages

/-- `pmm_alloc` takes a free page, or fails when there is none. -/
theorem RegionReady.pmmAlloc_cases (hready : RegionReady s) :
    (pmmAlloc s = (0#64, s) ∧ ∀ page, ¬ FreePage s page) ∨
      ∃ page next, pmmAlloc s = (page, next) ∧ page ≠ 0#64 ∧ Took s page next := by
  rcases Mm.pmmAlloc_cases hready.toScanReady with ⟨hnull, hall⟩ | ⟨number, hnumber, hunused, htake⟩
  · left
    refine ⟨hnull, ?_⟩
    rintro page ⟨number, hnumber, -, hfree⟩
    rw [hall number hnumber] at hfree
    cases hfree
  · right
    have hbase := hready.base_ge
    have hfits := hready.fits
    have hregion : s.pmmBase.toNat + s.pmmTotalPages.toNat * 4096 ≤ 2 ^ 64 := by omega
    have haddress := toNat_pageAddress hregion hnumber
    refine ⟨_, _, htake, ?_, ?_⟩
    · intro hnull
      rw [hnull, BitVec.toNat_ofNat, Nat.zero_mod] at haddress
      omega
    · refine ⟨⟨⟨hready.total_le, Or.inl ?_⟩, hready.base_mod, hbase, hfits⟩,
        ⟨number.toNat, hnumber, haddress, hunused⟩, fun other ↦ ⟨?_, ?_⟩, rfl, rfl⟩
      · show ((number + 1#64) % s.pmmTotalPages).toNat < s.pmmTotalPages.toNat
        rw [toNat_nextHint hready.toScanReady hnumber]
        exact Nat.mod_lt _ (by omega)
      · rintro ⟨otherNumber, hotherNumber, hotherAddress, hotherFree⟩
        change bitTest (bitSet s.bitmap number.toNat) otherNumber = false at hotherFree
        rw [bitTest_bitSet (by decide), Bool.or_eq_false_iff, decide_eq_false_iff_not] at hotherFree
        refine ⟨⟨otherNumber, hotherNumber, hotherAddress, hotherFree.2⟩, ?_⟩
        rintro rfl
        change _ = s.pmmBase.toNat + otherNumber * 4096 at hotherAddress
        omega
      · rintro ⟨⟨otherNumber, hotherNumber, hotherAddress, hotherFree⟩, hne⟩
        refine ⟨otherNumber, hotherNumber, hotherAddress, ?_⟩
        show bitTest (bitSet s.bitmap number.toNat) otherNumber = false
        rw [bitTest_bitSet (by decide), hotherFree, Bool.or_false, decide_eq_false_iff_not]
        rintro rfl
        exact hne (BitVec.eq_of_toNat_eq (by rw [hotherAddress, haddress]))

/-- What is free after `pmm_free` was free before, or is the page named. -/
theorem RegionReady.pmmFree (hready : RegionReady s) (haligned : PageAligned page) :
    RegionReady (pmmFree s page) ∧ (pmmFree s page).pmmBase = s.pmmBase ∧
      (pmmFree s page).pmmTotalPages = s.pmmTotalPages ∧
        ∀ other, FreePage (pmmFree s page) other → FreePage s other ∨ other = page := by
  rcases pmmFree_cases s page with ⟨hsame, -⟩ | ⟨number, hnamed, -, hrelease⟩
  · rw [hsame]
    exact ⟨hready, rfl, rfl, fun _ ↦ Or.inl⟩
  · rw [hrelease]
    refine ⟨⟨⟨hready.total_le, hready.last_lt⟩, hready.base_mod, hready.base_ge, hready.fits⟩, rfl,
      rfl, ?_⟩
    rintro other ⟨otherNumber, hotherNumber, hotherAddress, hotherFree⟩
    change bitTest (bitClear s.bitmap number) otherNumber = false at hotherFree
    change other.toNat = s.pmmBase.toNat + otherNumber * 4096 at hotherAddress
    rw [bitTest_bitClear (by decide), Bool.and_eq_false_iff, Bool.not_eq_false',
      decide_eq_true_iff] at hotherFree
    rcases hotherFree with rfl | hfree
    · right
      rw [regionPage, Option.ite_none_right_eq_some, Option.some.injEq, pageIndex] at hnamed
      obtain ⟨⟨-, hge, -⟩, hnumber⟩ := hnamed
      rw [PageAligned] at haligned
      have hbase := hready.base_mod
      exact BitVec.eq_of_toNat_eq (by omega)
    · exact Or.inl ⟨otherNumber, hotherNumber, hotherAddress, hfree⟩

/-- `pmm_free` frees the page named, when it is a page of the region, and no other. -/
theorem RegionReady.freePage_pmmFree_iff (hready : RegionReady s) (haligned : PageAligned page)
    {other : Word} : FreePage (Mm.pmmFree s page) other ↔ FreePage s other ∨
      other = page ∧ s.pmmBase.toNat ≤ page.toNat ∧
        page.toNat < s.pmmBase.toNat + s.pmmTotalPages.toNat * 4096 := by
  have hbase := hready.base_mod
  have hbaseGe := hready.base_ge
  rw [PageAligned] at haligned
  obtain ⟨-, hbaseEq, htotalEq, hfree⟩ := hready.pmmFree haligned
  constructor
  · intro hother
    refine (hfree other hother).imp_right fun heq ↦ ⟨heq, ?_⟩
    have hregion := hother.inRegion
    rwa [hbaseEq, htotalEq, heq] at hregion
  · -- a page of the region has a number, whose bit is clear afterwards
    have hnamed : s.pmmBase.toNat ≤ page.toNat →
        page.toNat < s.pmmBase.toNat + s.pmmTotalPages.toNat * 4096 →
          regionPage s.pmmBase s.pmmTotalPages.toNat page =
            some (pageIndex s.pmmBase page) := by
      intro hge hlt
      refine if_pos ⟨?_, hge, ?_⟩
      · rintro rfl
        rw [BitVec.toNat_ofNat, Nat.zero_mod] at hge
        omega
      · rw [pageIndex]
        omega
    rcases pmmFree_cases s page with ⟨hsame, hunused⟩ | ⟨number, hnumber, -, hrelease⟩
    · rw [hsame]
      rintro (hother | ⟨rfl, hge, hlt⟩)
      · exact hother
      · refine ⟨pageIndex s.pmmBase other, ?_, ?_, hunused _ (hnamed hge hlt)⟩
        · rw [pageIndex]
          omega
        · rw [pageIndex]
          omega
    · rw [hrelease]
      rintro (⟨otherNumber, hotherNumber, hotherAddress, hotherFree⟩ | ⟨rfl, hge, hlt⟩)
      · refine ⟨otherNumber, hotherNumber, hotherAddress, ?_⟩
        show bitTest (bitClear s.bitmap number) otherNumber = false
        rw [bitTest_bitClear (by decide), hotherFree, Bool.and_false]
      · rw [hnamed hge hlt, Option.some.injEq] at hnumber
        refine ⟨number, ?_, ?_, ?_⟩
        · show number < s.pmmTotalPages.toNat
          rw [← hnumber, pageIndex]
          omega
        · show other.toNat = s.pmmBase.toNat + number * 4096
          rw [← hnumber, pageIndex]
          omega
        · show bitTest (bitClear s.bitmap number) number = false
          rw [bitTest_bitClear (by decide)]
          simp

/-! ### Pages that can be handed out -/

/-- A page that `alloc_table` can still hand out: of the unused part of the pool, or free. -/
def Available (s : TableSupply) (page : Word) : Prop :=
  (∃ number, s.ptPoolUsed.toNat ≤ number * 4096 ∧ number * 4096 < 262144 ∧
    page.toNat = s.ptPool.toNat + number * 4096) ∨ FreePage s.pmm page

/-- The pool lies in the kernel image, below the region. -/
structure SupplyReady (s : TableSupply) : Prop where
  region : RegionReady s.pmm
  pool_mod : s.ptPool.toNat % 4096 = 0
  pool_end : s.ptPool.toNat + 262144 ≤ 0x200000
  used_mod : s.ptPoolUsed.toNat % 4096 = 0
  used_le : s.ptPoolUsed.toNat ≤ 262144

theorem SupplyReady.pageAligned {s : TableSupply} {page : Word} (hready : SupplyReady s)
    (hpage : Available s page) : PageAligned page := by
  rcases hpage with ⟨number, -, -, haddress⟩ | hfree
  · have hpool := hready.pool_mod
    rw [PageAligned, haddress]
    omega
  · exact hready.region.pageAligned hfree

/-- A page of the pool lies in the kernel image. -/
theorem Available.low_or_free {s : TableSupply} {page : Word} (hready : SupplyReady s)
    (hpage : Available s page) : page.toNat < 0x200000 ∨ FreePage s.pmm page := by
  rcases hpage with ⟨number, -, hlt, hnumber⟩ | hfree
  · have hend := hready.pool_end
    omega
  · exact Or.inr hfree

/-- The supply after a page was taken from the page allocator. -/
structure SupplyTook (s : TableSupply) (page : Word) (pmm : Pmm) : Prop where
  ready : SupplyReady { s with pmm := pmm }
  available : Available s page
  rest : ∀ other, Available { s with pmm := pmm } other → Available s other ∧ other ≠ page

theorem Took.supply {s : TableSupply} {page : Word} {pmm : Pmm} (htook : Took s.pmm page pmm)
    (hready : SupplyReady s) : SupplyTook s page pmm := by
  refine ⟨⟨htook.ready, hready.pool_mod, hready.pool_end, hready.used_mod, hready.used_le⟩,
    Or.inr htook.free, ?_⟩
  rintro other (⟨number, hge, hlt, hnumber⟩ | hfree)
  · refine ⟨Or.inl ⟨number, hge, hlt, hnumber⟩, ?_⟩
    rintro rfl
    have hregion := htook.free.inRegion
    have hbase := hready.region.base_ge
    have hend := hready.pool_end
    change _ = s.ptPool.toNat + _ at hnumber
    omega
  · obtain ⟨hfree, hne⟩ := (htook.rest other).mp hfree
    exact ⟨Or.inr hfree, hne⟩

/-- The pages come from the same pool and the same region. -/
structure SameSource (s next : TableSupply) : Prop where
  pool_eq : next.ptPool = s.ptPool
  base_eq : next.pmm.pmmBase = s.pmm.pmmBase
  total_eq : next.pmm.pmmTotalPages = s.pmm.pmmTotalPages

theorem SameSource.refl (s : TableSupply) : SameSource s s :=
  ⟨rfl, rfl, rfl⟩

theorem SameSource.trans {s middle next : TableSupply} (hfirst : SameSource s middle)
    (hsecond : SameSource middle next) : SameSource s next :=
  ⟨hsecond.pool_eq.trans hfirst.pool_eq, hsecond.base_eq.trans hfirst.base_eq,
    hsecond.total_eq.trans hfirst.total_eq⟩

/-- The effect of handing out a page for a table. -/
structure Allocated (memory : Memory) (s : TableSupply) (new : Word) (zeroed : Memory)
    (next : TableSupply) : Prop where
  ready : SupplyReady next
  aligned : PageAligned new
  bound : new.toNat < 2 ^ 52
  available : Available s new
  rest : ∀ page, Available next page ↔ Available s page ∧ page ≠ new
  source : SameSource s next
  frame : ∀ position, ¬ InPage new position → zeroed position = memory position

section Alloc

variable {memory other zeroed : Memory} {supply supplyNext : TableSupply} {new : Word}

/-- The pool has a page left. -/
theorem pool_left_iff (hready : SupplyReady supply) :
    supply.ptPoolUsed + pageSize ≤ ptPoolSize ↔ supply.ptPoolUsed.toNat + 4096 ≤ 262144 := by
  have hused := hready.used_le
  rw [BitVec.le_def, BitVec.toNat_add, BitVec.toNat_ofNat, BitVec.toNat_ofNat,
    Nat.mod_eq_of_lt (by omega : 4096 < 2 ^ 64), Nat.mod_eq_of_lt (by omega)]

/-- All that `alloc_table` can do: take the next page of the pool and clear it, or take a page of
the page allocator, or panic when neither has one. -/
theorem allocTable_cases (hready : SupplyReady supply) (memory : Memory) :
    (supply.ptPoolUsed.toNat + 4096 ≤ 262144 ∧
        allocTable memory supply = some (supply.ptPool + supply.ptPoolUsed,
          storeWords memory (supply.ptPool + supply.ptPoolUsed).toNat (List.replicate 512 0#64),
          { supply with ptPoolUsed := supply.ptPoolUsed + pageSize })) ∨
      (262144 < supply.ptPoolUsed.toNat + 4096 ∧ allocTable memory supply = none ∧
        ∀ page, ¬ FreePage supply.pmm page) ∨
      (262144 < supply.ptPoolUsed.toNat + 4096 ∧ ∃ page pmm,
        pmmAlloc supply.pmm = (page, pmm) ∧ Took supply.pmm page pmm ∧
          allocTable memory supply = some (page, memory, { supply with pmm := pmm })) := by
  by_cases hpool : supply.ptPoolUsed.toNat + 4096 ≤ 262144
  · left
    exact ⟨hpool, by rw [allocTable, if_pos ((pool_left_iff hready).mpr hpool)]⟩
  · have hnot := fun hleft ↦ hpool ((pool_left_iff hready).mp hleft)
    right
    rcases hready.region.pmmAlloc_cases with ⟨hnull, hall⟩ | ⟨page, pmm, halloc, hne, htook⟩
    · left
      refine ⟨by omega, ?_, hall⟩
      rw [allocTable, if_neg hnot, hnull]
      exact if_pos rfl
    · right
      refine ⟨by omega, page, pmm, halloc, htook, ?_⟩
      rw [allocTable, if_neg hnot, halloc]
      exact if_neg hne

/-- Where the next page of the pool is, and what is used after it. -/
theorem SupplyReady.toNat_pool (hready : SupplyReady supply)
    (hpool : supply.ptPoolUsed.toNat + 4096 ≤ 262144) :
    (supply.ptPool + supply.ptPoolUsed).toNat = supply.ptPool.toNat + supply.ptPoolUsed.toNat ∧
      (supply.ptPoolUsed + pageSize).toNat = supply.ptPoolUsed.toNat + 4096 := by
  have hend := hready.pool_end
  rw [BitVec.toNat_add, BitVec.toNat_add, BitVec.toNat_ofNat,
    Nat.mod_eq_of_lt (by omega : 4096 < 2 ^ 64)]
  exact ⟨Nat.mod_eq_of_lt (by omega), Nat.mod_eq_of_lt (by omega)⟩

/-- The next page of the pool is handed out, cleared. -/
theorem SupplyReady.allocated_pool (hready : SupplyReady supply)
    (hpool : supply.ptPoolUsed.toNat + 4096 ≤ 262144) (memory : Memory) :
    Allocated memory supply (supply.ptPool + supply.ptPoolUsed)
      (storeWords memory (supply.ptPool + supply.ptPoolUsed).toNat (List.replicate 512 0#64))
      { supply with ptPoolUsed := supply.ptPoolUsed + pageSize } := by
  have hbase := hready.region.base_ge
  have hend := hready.pool_end
  have hmod := hready.used_mod
  have hpoolMod := hready.pool_mod
  obtain ⟨haddress, hused⟩ := hready.toNat_pool hpool
  refine ⟨⟨hready.region, hpoolMod, hend, ?_, ?_⟩, ?_, ?_, ?_, fun page ↦ ⟨?_, ?_⟩,
    ⟨rfl, rfl, rfl⟩, ?_⟩
  · show (supply.ptPoolUsed + pageSize).toNat % 4096 = 0
    omega
  · show (supply.ptPoolUsed + pageSize).toNat ≤ 262144
    omega
  · rw [PageAligned, haddress]
    omega
  · rw [haddress]
    omega
  · exact Or.inl ⟨supply.ptPoolUsed.toNat / 4096, by omega, by omega, by rw [haddress]; omega⟩
  · rintro (⟨number, hge, hlt, hnumber⟩ | hfree)
    · change (supply.ptPoolUsed + pageSize).toNat ≤ _ at hge
      change page.toNat = supply.ptPool.toNat + _ at hnumber
      refine ⟨Or.inl ⟨number, by omega, hlt, hnumber⟩, ?_⟩
      rintro rfl
      omega
    · have hregion := hfree.inRegion
      refine ⟨Or.inr hfree, ?_⟩
      rintro rfl
      change supply.pmm.pmmBase.toNat ≤ _ ∧ _ at hregion
      omega
  · rintro ⟨⟨number, hge, hlt, hnumber⟩ | hfree, hne⟩
    · refine Or.inl ⟨number, ?_, hlt, hnumber⟩
      show (supply.ptPoolUsed + pageSize).toNat ≤ _
      have hother : number * 4096 ≠ supply.ptPoolUsed.toNat := fun heq ↦
        hne (BitVec.eq_of_toNat_eq (by rw [hnumber, haddress, heq]))
      omega
    · exact Or.inr hfree
  · intro position houtside
    rw [InPage] at houtside
    exact storeWords_apply_of_disjoint (by rw [List.length_replicate]; omega)

/-- A page of the page allocator is handed out as it is. -/
theorem SupplyReady.allocated_page (hready : SupplyReady supply) {page : Word} {pmm : Pmm}
    (htook : Took supply.pmm page pmm) (memory : Memory) :
    Allocated memory supply page memory { supply with pmm := pmm } := by
  have hfits := hready.region.fits
  have hregion := htook.free.inRegion
  have hsupply := htook.supply hready
  refine ⟨hsupply.ready, hready.region.pageAligned htook.free, by omega, hsupply.available,
    fun other ↦ ⟨hsupply.rest other, ?_⟩, ⟨rfl, htook.base_eq, htook.total_eq⟩, fun _ _ ↦ rfl⟩
  rintro ⟨⟨number, hge, hlt, hnumber⟩ | hfree, hne⟩
  · exact Or.inl ⟨number, hge, hlt, hnumber⟩
  · exact Or.inr ((htook.rest other).mpr ⟨hfree, hne⟩)

/-- What a call of `alloc_table` that returns does. -/
theorem SupplyReady.allocTable (hready : SupplyReady supply)
    (halloc : allocTable memory supply = some (new, zeroed, supplyNext)) :
    Allocated memory supply new zeroed supplyNext := by
  rcases allocTable_cases hready memory with
    ⟨hpool, hsome⟩ | ⟨-, hnone, -⟩ | ⟨-, page, pmm, -, htook, hsome⟩
  · rw [hsome, Option.some.injEq, Prod.mk.injEq, Prod.mk.injEq] at halloc
    obtain ⟨rfl, rfl, rfl⟩ := halloc
    exact hready.allocated_pool hpool memory
  · rw [hnone] at halloc
    cases halloc
  · rw [hsome, Option.some.injEq, Prod.mk.injEq, Prod.mk.injEq] at halloc
    obtain ⟨rfl, rfl, rfl⟩ := halloc
    exact hready.allocated_page htook memory

/-- Which page is handed out does not depend on what is in memory, and what is in the page
afterwards depends only on what was in it. -/
theorem allocTable_congr (hready : SupplyReady supply)
    (halloc : allocTable memory supply = some (new, zeroed, supplyNext))
    (hagree : ∀ position, InPage new position → other position = memory position) :
    ∃ otherZeroed, allocTable other supply = some (new, otherZeroed, supplyNext) ∧
      ∀ position, InPage new position → otherZeroed position = zeroed position := by
  rcases allocTable_cases hready memory with
    ⟨hpool, hsome⟩ | ⟨-, hnone, -⟩ | ⟨hpool, page, pmm, hpage, htook, hsome⟩
  · rw [hsome, Option.some.injEq, Prod.mk.injEq, Prod.mk.injEq] at halloc
    obtain ⟨rfl, rfl, rfl⟩ := halloc
    refine ⟨_, by rw [allocTable, if_pos ((pool_left_iff hready).mpr hpool)], ?_⟩
    rintro position ⟨hge, hlt⟩
    rw [storeWords_zero_apply hge hlt, storeWords_zero_apply hge hlt]
  · rw [hnone] at halloc
    cases halloc
  · rcases allocTable_cases hready other with
      ⟨hotherPool, -⟩ | ⟨-, -, hall⟩ | ⟨-, otherPage, otherPmm, hotherPage, -, hother⟩
    · omega
    · exact absurd htook.free (hall page)
    · rw [hpage, Prod.mk.injEq] at hotherPage
      obtain ⟨rfl, rfl⟩ := hotherPage
      rw [hsome, Option.some.injEq, Prod.mk.injEq, Prod.mk.injEq] at halloc
      obtain ⟨rfl, rfl, rfl⟩ := halloc
      exact ⟨other, hother, hagree⟩

/-! ### Clean tables -/

/-- The next `count` tables that `alloc_table` hands out are zero. -/
def CleanTables (memory : Memory) : ℕ → TableSupply → Prop
  | 0, _ => True
  | count + 1, s => ∀ new zeroed next, allocTable memory s = some (new, zeroed, next) →
      ZeroPage zeroed new ∧ CleanTables memory count next

/-- Whether tables come zeroed depends only on the pages that can be handed out. -/
theorem CleanTables.congr {count : ℕ} (hready : SupplyReady supply)
    (hclean : CleanTables memory count supply)
    (hagree : ∀ page, Available supply page → ∀ position, InPage page position →
      other position = memory position) : CleanTables other count supply := by
  induction count generalizing supply with
  | zero => trivial
  | succ count ih =>
    intro new zeroed supplyNext halloc
    have hallocated := hready.allocTable halloc
    obtain ⟨cleared, hcleared, hsame⟩ := allocTable_congr hready halloc fun position hposition ↦
      (hagree new hallocated.available position hposition).symm
    obtain ⟨hzero, hrest⟩ := hclean new cleared supplyNext hcleared
    refine ⟨fun position hposition ↦ ?_, ih hallocated.ready hrest fun page hpage ↦
      hagree page ((hallocated.rest page).mp hpage).1⟩
    rw [← hsame position hposition, hzero position hposition]

/-- Tables come zeroed when everything that can be handed out is zero. -/
theorem cleanTables_of_zero {count : ℕ} (hready : SupplyReady supply)
    (hzero : ∀ page, Available supply page → ZeroPage memory page) :
    CleanTables memory count supply := by
  induction count generalizing supply with
  | zero => trivial
  | succ count ih =>
    intro new zeroed supplyNext halloc
    have hallocated := hready.allocTable halloc
    refine ⟨?_, ih hallocated.ready fun page hpage ↦ hzero page ((hallocated.rest page).mp hpage).1⟩
    rcases allocTable_cases hready memory with
      ⟨-, hpool⟩ | ⟨-, hnone, -⟩ | ⟨-, page, pmm, -, -, hpage⟩
    · rw [hpool, Option.some.injEq, Prod.mk.injEq, Prod.mk.injEq] at halloc
      obtain ⟨rfl, rfl, -⟩ := halloc
      exact fun position hposition ↦ storeWords_zero_apply hposition.1 hposition.2
    · rw [hnone] at halloc
      cases halloc
    · rw [hpage, Option.some.injEq, Prod.mk.injEq, Prod.mk.injEq] at halloc
      obtain ⟨-, rfl, -⟩ := halloc
      exact hzero new hallocated.available

/-- Tables from the pool come zeroed. -/
theorem cleanTables_of_pool {count : ℕ} (hready : SupplyReady supply)
    (hpool : supply.ptPoolUsed.toNat + count * 4096 ≤ 262144) :
    CleanTables memory count supply := by
  induction count generalizing supply with
  | zero => trivial
  | succ count ih =>
    intro new zeroed supplyNext halloc
    have hleft : supply.ptPoolUsed.toNat + 4096 ≤ 262144 := by omega
    have hallocated := hready.allocTable halloc
    rw [allocTable, if_pos ((pool_left_iff hready).mpr hleft), Option.some.injEq, Prod.mk.injEq,
      Prod.mk.injEq] at halloc
    obtain ⟨rfl, rfl, rfl⟩ := halloc
    refine ⟨fun position hposition ↦ storeWords_zero_apply hposition.1 hposition.2,
      ih hallocated.ready ?_⟩
    show (supply.ptPoolUsed + pageSize).toNat + _ ≤ _
    rw [(hready.toNat_pool hleft).2]
    omega

end Alloc

end Colix.Mm
