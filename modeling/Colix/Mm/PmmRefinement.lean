import Mathlib.Data.Finset.Basic
import Mathlib.Data.Finset.Range
import Colix.Foundation.Execution
import Colix.Mm.Pmm

/-!
# The page allocator refines a set of free pages

`pageSet` is what the allocator is for: a set of free page numbers from which pages are taken and
to which they are returned. `PmmInvariant` ties the bitmap, the separate free count and the scan
hint to the set of outstanding pages, `PmmInvariant.step` keeps it under one call, and
`PmmInvariant.of_run` carries it along every run from `pmm_init`. `pmm_refines_pageSet` is the
simulation, and `pmm_run_correct` states what a caller sees.

The outstanding pages are read off the history of calls and results alone
(`outstandingPages`), so the bitmap and the counter are compared with something they do not define.
-/

set_option autoImplicit false
set_option relaxedAutoImplicit false

namespace Colix.Mm

open Foundation

/-! ### Calls, histories and outstanding pages -/

/-- A call of the allocator, with what it returned. -/
inductive PmmEvent
  | alloc (result : Word)
  | free (ptr : Word)

/-- Runs of the allocator: `pmm_init(mem_base, mem_size)` on any earlier contents of its static
state, then calls of `pmm_alloc` and of `pmm_free` with any pointer. -/
def pmmSystem (memBase memSize : Word) : TransitionSystem Pmm PmmEvent where
  start s := ∃ before, s = pmmInit before memBase memSize
  step s event next :=
    match event with
    | .alloc result => pmmAlloc s = (result, next)
    | .free ptr => pmmFree s ptr = next

/-- Every call is possible in every state. -/
theorem alloc_step (memBase memSize : Word) (s : Pmm) :
    (pmmSystem memBase memSize).step s (.alloc (pmmAlloc s).1) (pmmAlloc s).2 :=
  rfl

theorem free_step (memBase memSize : Word) (s : Pmm) (ptr : Word) :
    (pmmSystem memBase memSize).step s (.free ptr) (pmmFree s ptr) :=
  rfl

/-- The effect of one call on the pages outstanding in a region of `total` pages at `base`. -/
def outstandingStep (base : Word) (total : ℕ) (outstanding : Finset ℕ) : PmmEvent → Finset ℕ
  | .alloc result =>
    if result = 0#64 then outstanding else insert (pageIndex base result) outstanding
  | .free ptr =>
    match regionPage base total ptr with
    | some page => outstanding.erase page
    | none => outstanding

/-- The pages allocated and not freed since, after a history of calls. -/
def outstandingPages (base : Word) (total : ℕ) (events : List PmmEvent) : Finset ℕ :=
  events.foldl (outstandingStep base total) ∅

theorem outstandingPages_append (base : Word) (total : ℕ) (events : List PmmEvent)
    (event : PmmEvent) : outstandingPages base total (events ++ [event]) =
      outstandingStep base total (outstandingPages base total events) event := by
  rw [outstandingPages, List.foldl_append]
  rfl

/-! ### The invariant -/

/-- The allocator's state represents a set of outstanding pages. -/
structure PmmInvariant (s : Pmm) (outstanding : Finset ℕ) : Prop extends ScanReady s where
  used_iff : ∀ page < s.pmmTotalPages.toNat, bitTest s.bitmap page = true ↔ page ∈ outstanding
  outstanding_lt : ∀ page ∈ outstanding, page < s.pmmTotalPages.toNat
  tail_used : ∀ page, s.pmmTotalPages.toNat ≤ page → page < 131072 → bitTest s.bitmap page = true
  free_add_card : s.pmmFreePages.toNat + outstanding.card = s.pmmTotalPages.toNat

variable {s next : Pmm} {outstanding : Finset ℕ} {memBase memSize : Word}

/-- Every word of the bitmap is filled by the first loop of `pmm_init`. -/
theorem foldl_fill (bitmap : ℕ → Word) (count word : ℕ) (hword : word < count) :
    (List.range count).foldl (fun bitmap i ↦ Function.update bitmap i (~~~0#64)) bitmap word =
      ~~~0#64 := by
  induction count with
  | zero => omega
  | succ count ih =>
    rw [List.range_succ, List.foldl_append, List.foldl_cons, List.foldl_nil]
    by_cases hlast : word = count
    · rw [hlast, Function.update_self]
    · rw [Function.update_of_ne hlast]
      exact ih (by omega)

/-- The second loop of `pmm_init` clears bits as `bitClear` does. -/
theorem foldl_pmmSetFree (bitmap : ℕ → Word) (count : ℕ) (hcount : count ≤ 131072) :
    (List.range count).foldl (fun bitmap i ↦ pmmSetFree bitmap (BitVec.ofNat 64 i)) bitmap =
      (List.range count).foldl bitClear bitmap := by
  refine List.foldl_ext _ _ _ fun bitmap page hpage ↦ ?_
  have hlt := List.mem_range.mp hpage
  rw [pmmSetFree_eq, BitVec.toNat_ofNat, Nat.mod_eq_of_lt (by omega)]

/-- The page count `pmm_init` settles on. -/
theorem toNat_totalPages_pmmInit (before : Pmm) (memBase memSize : Word) :
    (pmmInit before memBase memSize).pmmTotalPages.toNat = min (memSize.toNat / 4096) 131072 := by
  have hdiv : (memSize / pageSize).toNat = memSize.toNat / 4096 := by simp
  simp only [pmmInit]
  split_ifs with hcap
  · rw [BitVec.lt_def, hdiv] at hcap
    simp only [BitVec.toNat_ofNat] at hcap ⊢
    omega
  · rw [BitVec.lt_def, hdiv] at hcap
    rw [hdiv]
    simp only [BitVec.toNat_ofNat] at hcap
    omega

/-- The region `pmm_init` manages starts at a page boundary. -/
theorem pmmBase_pmmInit_mod (before : Pmm) (memBase memSize : Word) :
    (pmmInit before memBase memSize).pmmBase.toNat % 4096 = 0 := by
  have halign := toNat_alignUp (by decide : 12 < 64) memBase
  have hbase : (pmmInit before memBase memSize).pmmBase =
      alignUp memBase (BitVec.ofNat 64 (2 ^ 12)) := rfl
  rw [hbase, halign]
  omega

/-- After `pmm_init` no page is outstanding. -/
theorem PmmInvariant.init (before : Pmm) (memBase memSize : Word) :
    PmmInvariant (pmmInit before memBase memSize) ∅ := by
  have htotal := toNat_totalPages_pmmInit before memBase memSize
  have hle : (pmmInit before memBase memSize).pmmTotalPages.toNat ≤ 131072 := by
    rw [htotal]
    exact Nat.min_le_right _ _
  have hfilled : ∀ page < 131072, bitTest
      ((List.range bitmapSize).foldl (fun bitmap i ↦ Function.update bitmap i (~~~0#64))
        before.bitmap) page = true := by
    intro page hpage
    have hmod : page % 64 < 64 := Nat.mod_lt _ (by decide)
    have hword : page / 64 < 2048 := by omega
    rw [bitTest_eq_getLsbD (by decide), foldl_fill _ _ _ hword, BitVec.getLsbD_not,
      BitVec.getLsbD_zero, decide_eq_true hmod]
    rfl
  have hbit : ∀ page, bitTest (pmmInit before memBase memSize).bitmap page =
      (decide ((pmmInit before memBase memSize).pmmTotalPages.toNat ≤ page) &&
        bitTest ((List.range bitmapSize).foldl
          (fun bitmap i ↦ Function.update bitmap i (~~~0#64)) before.bitmap) page) := by
    intro page
    rw [← bitTest_foldl_bitClear (by decide), ← foldl_pmmSetFree _ _ hle]
    rfl
  refine ⟨⟨hle, ?_⟩, ?_, ?_, ?_, ?_⟩
  · have hlast : (pmmInit before memBase memSize).pmmLastAlloc.toNat = 0 := rfl
    rw [hlast]
    omega
  · intro page hpage
    rw [hbit, decide_eq_false (by omega)]
    simp
  · exact fun page hpage ↦ absurd hpage (Finset.notMem_empty page)
  · intro page hge hlt
    rw [hbit, hfilled page hlt, decide_eq_true hge]
    rfl
  · rfl

/-! ### One call -/

/-- With every page of the region in use, every page is outstanding. -/
theorem outstanding_eq_range (hinv : PmmInvariant s outstanding)
    (hall : ∀ page < s.pmmTotalPages.toNat, bitTest s.bitmap page = true) :
    outstanding = Finset.range s.pmmTotalPages.toNat := by
  ext page
  rw [Finset.mem_range]
  exact ⟨hinv.outstanding_lt page, fun hpage ↦ (hinv.used_iff page hpage).mp (hall page hpage)⟩

/-- Taking a page that was not in use. -/
theorem PmmInvariant.take (hinv : PmmInvariant s outstanding) {page : Word}
    (hpage : page.toNat < s.pmmTotalPages.toNat) (hunused : bitTest s.bitmap page.toNat = false) :
    PmmInvariant
      { s with
        bitmap := bitSet s.bitmap page.toNat
        pmmFreePages := s.pmmFreePages - 1#64
        pmmLastAlloc := (page + 1#64) % s.pmmTotalPages }
      (insert page.toNat outstanding) := by
  have hnotMem : page.toNat ∉ outstanding := by
    rw [← hinv.used_iff _ hpage, hunused]
    exact Bool.false_ne_true
  have hcard : outstanding.card + 1 ≤ s.pmmTotalPages.toNat := by
    rw [← Finset.card_insert_of_notMem hnotMem, ← Finset.card_range s.pmmTotalPages.toNat]
    refine Finset.card_le_card fun other hother ↦ Finset.mem_range.mpr ?_
    rcases Finset.mem_insert.mp hother with rfl | hother
    · exact hpage
    · exact hinv.outstanding_lt other hother
  refine ⟨⟨hinv.total_le, Or.inl ?_⟩, ?_, ?_, ?_, ?_⟩
  · show ((page + 1#64) % s.pmmTotalPages).toNat < s.pmmTotalPages.toNat
    rw [toNat_nextHint hinv.toScanReady hpage]
    exact Nat.mod_lt _ (by omega)
  · intro other hother
    show bitTest (bitSet s.bitmap page.toNat) other = true ↔ _
    rw [bitTest_bitSet (by decide), Bool.or_eq_true, decide_eq_true_iff, Finset.mem_insert,
      hinv.used_iff other hother]
  · intro other hother
    rcases Finset.mem_insert.mp hother with rfl | hother
    · exact hpage
    · exact hinv.outstanding_lt other hother
  · intro other hge hlt
    show bitTest (bitSet s.bitmap page.toNat) other = true
    rw [bitTest_bitSet (by decide), hinv.tail_used other hge hlt, Bool.or_true]
  · show (s.pmmFreePages - 1#64).toNat + _ = s.pmmTotalPages.toNat
    have hcount := hinv.free_add_card
    have hone : (1#64).toNat = 1 := rfl
    rw [Finset.card_insert_of_notMem hnotMem, BitVec.toNat_sub_of_le, hone]
    · omega
    · rw [BitVec.le_def, hone]
      omega

/-- Releasing a page in use. -/
theorem PmmInvariant.release (hinv : PmmInvariant s outstanding) {page : ℕ}
    (hpage : page < s.pmmTotalPages.toNat) (hused : bitTest s.bitmap page = true) :
    PmmInvariant
      { s with
        bitmap := bitClear s.bitmap page
        pmmFreePages := s.pmmFreePages + 1#64 }
      (outstanding.erase page) := by
  have hmem : page ∈ outstanding := (hinv.used_iff page hpage).mp hused
  have hpositive : 0 < outstanding.card := Finset.card_pos.mpr ⟨page, hmem⟩
  refine ⟨⟨hinv.total_le, hinv.last_lt⟩, ?_, ?_, ?_, ?_⟩
  · intro other hother
    show bitTest (bitClear s.bitmap page) other = true ↔ _
    rw [bitTest_bitClear (by decide), Bool.and_eq_true, Bool.not_eq_true', decide_eq_false_iff_not,
      Finset.mem_erase, hinv.used_iff other hother]
  · exact fun other hother ↦ hinv.outstanding_lt other (Finset.mem_of_mem_erase hother)
  · intro other hge hlt
    have hne : other ≠ page := by
      rintro rfl
      exact absurd hpage (Nat.not_lt.mpr hge)
    show bitTest (bitClear s.bitmap page) other = true
    rw [bitTest_bitClear (by decide), hinv.tail_used other hge hlt, decide_eq_false hne]
    rfl
  · show (s.pmmFreePages + 1#64).toNat + _ = s.pmmTotalPages.toNat
    have hcount := hinv.free_add_card
    have htotal := hinv.total_le
    have hone : (1#64).toNat = 1 := rfl
    rw [Finset.card_erase_of_mem hmem, BitVec.toNat_add, hone, Nat.mod_eq_of_lt (by omega)]
    omega

/-- The region a run manages: where it starts, how long it is, and that its addresses do not
wrap. -/
structure RegionOf (s : Pmm) (base : Word) (total : ℕ) : Prop where
  base_eq : s.pmmBase = base
  total_eq : s.pmmTotalPages.toNat = total
  base_ne : base ≠ 0#64
  base_mod : base.toNat % 4096 = 0
  fits : base.toNat + total * 4096 ≤ 2 ^ 64

/-- The address of a page of the region is not NULL, and names that page. -/
theorem RegionOf.pageAddress {base : Word} {total : ℕ} (hregion : RegionOf s base total)
    {page : Word} (hpage : page.toNat < total) :
    (base + page * pageSize).toNat = base.toNat + page.toNat * 4096 ∧
      base + page * pageSize ≠ 0#64 ∧ pageIndex base (base + page * pageSize) = page.toNat := by
  have haddress := toNat_pageAddress hregion.fits hpage
  refine ⟨haddress, fun hnull ↦ ?_, ?_⟩
  · have hzero := congrArg BitVec.toNat hnull
    rw [haddress, BitVec.toNat_ofNat] at hzero
    exact hregion.base_ne (BitVec.eq_of_toNat_eq (by rw [BitVec.toNat_ofNat]; omega))
  · rw [pageIndex, haddress]
    omega

/-- The step lemma: one call keeps the region, and the invariant for the pages outstanding after
it. -/
theorem PmmInvariant.step {base : Word} {total : ℕ} (hregion : RegionOf s base total)
    (hinv : PmmInvariant s outstanding) {event : PmmEvent}
    (hstep : (pmmSystem memBase memSize).step s event next) :
    RegionOf next base total ∧
      PmmInvariant next (outstandingStep base total outstanding event) := by
  obtain ⟨rfl, rfl, hne, hmod, hfits⟩ := hregion
  have hregion : RegionOf s s.pmmBase s.pmmTotalPages.toNat := ⟨rfl, rfl, hne, hmod, hfits⟩
  cases event with
  | alloc result =>
    change pmmAlloc s = (result, next) at hstep
    rcases pmmAlloc_cases hinv.toScanReady with ⟨hnull, -⟩ | ⟨page, hpage, hunused, htake⟩
    · rw [hnull, Prod.mk.injEq] at hstep
      obtain ⟨rfl, rfl⟩ := hstep
      exact ⟨hregion, hinv⟩
    · rw [htake, Prod.mk.injEq] at hstep
      obtain ⟨rfl, rfl⟩ := hstep
      obtain ⟨-, hresult, hindex⟩ := hregion.pageAddress hpage
      refine ⟨⟨rfl, rfl, hne, hmod, hfits⟩, ?_⟩
      rw [outstandingStep, if_neg hresult, hindex]
      exact hinv.take hpage hunused
  | free ptr =>
    change pmmFree s ptr = next at hstep
    rcases pmmFree_cases s ptr with ⟨hsame, hfree⟩ | ⟨page, hnamed, hused, hrelease⟩
    · rw [hsame] at hstep
      subst hstep
      refine ⟨hregion, ?_⟩
      rw [outstandingStep]
      split
      · rename_i page hnamed
        have hnotMem : page ∉ outstanding := by
          rw [← hinv.used_iff page (regionPage_lt hnamed), hfree page hnamed]
          exact Bool.false_ne_true
        rwa [Finset.erase_eq_of_notMem hnotMem]
      · exact hinv
    · rw [hrelease] at hstep
      subst hstep
      refine ⟨⟨rfl, rfl, hne, hmod, hfits⟩, ?_⟩
      simp only [outstandingStep, hnamed]
      exact hinv.release (regionPage_lt hnamed) hused

/-! ### Runs -/

/-- The base `pmm_init` gives a region. -/
def regionBase (memBase : Word) : Word :=
  alignUp memBase pageSize

/-- The number of pages `pmm_init` gives a region. -/
def regionPages (memSize : Word) : ℕ :=
  min (memSize.toNat / 4096) 131072

section Run

variable (hbase : regionBase memBase ≠ 0#64)
  (hfits : (regionBase memBase).toNat + regionPages memSize * 4096 ≤ 2 ^ 64)

include hbase hfits

/-- The region a run starts with. -/
theorem regionOf_pmmInit (before : Pmm) :
    RegionOf (pmmInit before memBase memSize) (regionBase memBase) (regionPages memSize) :=
  ⟨rfl, toNat_totalPages_pmmInit before memBase memSize, hbase,
    pmmBase_pmmInit_mod before memBase memSize, hfits⟩

/-- The run lemma: every state of a run represents the pages outstanding after its history. -/
theorem PmmInvariant.of_run {events : List PmmEvent}
    (hrun : (pmmSystem memBase memSize).Run events s) :
    RegionOf s (regionBase memBase) (regionPages memSize) ∧
      PmmInvariant s (outstandingPages (regionBase memBase) (regionPages memSize) events) := by
  refine hrun.history_invariant (motive := fun events s ↦
    RegionOf s (regionBase memBase) (regionPages memSize) ∧
      PmmInvariant s (outstandingPages (regionBase memBase) (regionPages memSize) events)) ?_ ?_
  · rintro _ ⟨before, rfl⟩
    exact ⟨regionOf_pmmInit hbase hfits before, PmmInvariant.init before memBase memSize⟩
  · rintro events s event next ⟨hregion, hinv⟩ hstep
    rw [outstandingPages_append]
    exact hinv.step hregion hstep

end Run

/-! ### The abstract set of free pages -/

/-- What a call does to the set of free pages. -/
inductive PageEvent
  | exhausted
  | taken (page : ℕ)
  | returned (page : ℕ)
  | ignored

/-- A set of free pages out of `total`: a page is taken only when it is free, taking fails only
when no page is free, and any page may be returned. -/
def pageSet (total : ℕ) : TransitionSystem (Finset ℕ) PageEvent where
  start free := free = Finset.range total
  step free event next :=
    match event with
    | .exhausted => free = ∅ ∧ next = free
    | .taken page => page ∈ free ∧ next = free.erase page
    | .returned page => page < total ∧ next = insert page free
    | .ignored => next = free

/-- The abstract event a call is seen as. -/
def observePage (base : Word) (total : ℕ) : PmmEvent → PageEvent
  | .alloc result => if result = 0#64 then .exhausted else .taken (pageIndex base result)
  | .free ptr =>
    match regionPage base total ptr with
    | some page => .returned page
    | none => .ignored

/-- The free pages after a call, as the abstract set has them. -/
theorem pageSet_step {base : Word} {total : ℕ} (hregion : RegionOf s base total)
    (hinv : PmmInvariant s outstanding) {event : PmmEvent}
    (hstep : (pmmSystem memBase memSize).step s event next) :
    (pageSet total).step (Finset.range total \ outstanding) (observePage base total event)
      (Finset.range total \ outstandingStep base total outstanding event) := by
  obtain ⟨rfl, rfl, hne, hmod, hfits⟩ := hregion
  have hregion : RegionOf s s.pmmBase s.pmmTotalPages.toNat := ⟨rfl, rfl, hne, hmod, hfits⟩
  cases event with
  | alloc result =>
    change pmmAlloc s = (result, next) at hstep
    rcases pmmAlloc_cases hinv.toScanReady with ⟨hnull, hall⟩ | ⟨page, hpage, hunused, htake⟩
    · rw [hnull, Prod.mk.injEq] at hstep
      obtain ⟨rfl, rfl⟩ := hstep
      refine ⟨?_, rfl⟩
      rw [outstanding_eq_range hinv hall]
      exact Finset.sdiff_self _
    · rw [htake, Prod.mk.injEq] at hstep
      obtain ⟨rfl, rfl⟩ := hstep
      obtain ⟨-, hresult, hindex⟩ := hregion.pageAddress hpage
      rw [observePage, if_neg hresult, outstandingStep, if_neg hresult, hindex]
      refine ⟨Finset.mem_sdiff.mpr ⟨Finset.mem_range.mpr hpage, fun hmem ↦ ?_⟩, ?_⟩
      · rw [(hinv.used_iff _ hpage).mpr hmem] at hunused
        cases hunused
      · ext other
        simp only [Finset.mem_sdiff, Finset.mem_erase, Finset.mem_insert, not_or]
        tauto
  | free ptr =>
    rw [observePage, outstandingStep]
    split
    · rename_i page hnamed
      refine ⟨regionPage_lt hnamed, ?_⟩
      ext other
      have hlt := regionPage_lt hnamed
      simp only [Finset.mem_sdiff, Finset.mem_erase, Finset.mem_insert, Finset.mem_range]
      by_cases heq : other = page
      · simp [heq, hlt]
      · simp [heq]
    · rfl

/-- The allocator refines the set of free pages: the history of a run, seen as page events, is a
history of `pageSet`, and the pages free after it are those of the region not outstanding. -/
theorem pmm_refines_pageSet (hbase : regionBase memBase ≠ 0#64)
    (hfits : (regionBase memBase).toNat + regionPages memSize * 4096 ≤ 2 ^ 64)
    {events : List PmmEvent} (hrun : (pmmSystem memBase memSize).Run events s) :
    (pageSet (regionPages memSize)).Run
      (events.map (observePage (regionBase memBase) (regionPages memSize)))
      (Finset.range (regionPages memSize) \
        outstandingPages (regionBase memBase) (regionPages memSize) events) := by
  have hsimulates : ∃ free, (pageSet (regionPages memSize)).Run
      (events.map (observePage (regionBase memBase) (regionPages memSize))) free ∧
        (RegionOf s (regionBase memBase) (regionPages memSize) ∧
          PmmInvariant s (outstandingPages (regionBase memBase) (regionPages memSize) events)) ∧
            free = Finset.range (regionPages memSize) \
              outstandingPages (regionBase memBase) (regionPages memSize) events := by
    refine hrun.simulates (fun events s free ↦
      (RegionOf s (regionBase memBase) (regionPages memSize) ∧
        PmmInvariant s (outstandingPages (regionBase memBase) (regionPages memSize) events)) ∧
          free = Finset.range (regionPages memSize) \
            outstandingPages (regionBase memBase) (regionPages memSize) events) ?_ ?_
    · rintro _ ⟨before, rfl⟩
      exact ⟨Finset.range (regionPages memSize), rfl,
        ⟨regionOf_pmmInit hbase hfits before, PmmInvariant.init before memBase memSize⟩,
        Finset.sdiff_empty.symm⟩
    · rintro events s _ event next ⟨⟨hregion, hinv⟩, rfl⟩ hstep
      rw [outstandingPages_append]
      exact ⟨_, pageSet_step hregion hinv hstep, hinv.step hregion hstep, rfl⟩
  obtain ⟨free, hfree, -, rfl⟩ := hsimulates
  exact hfree

/-! ### What a caller sees -/

/-- `pmm_alloc` fails exactly when every page is outstanding. -/
theorem pmmAlloc_null_iff {base : Word} {total : ℕ} (hregion : RegionOf s base total)
    (hinv : PmmInvariant s outstanding) :
    (pmmAlloc s).1 = 0#64 ↔ outstanding = Finset.range total := by
  obtain ⟨rfl, rfl, hne, hmod, hfits⟩ := hregion
  have hregion : RegionOf s s.pmmBase s.pmmTotalPages.toNat := ⟨rfl, rfl, hne, hmod, hfits⟩
  rcases pmmAlloc_cases hinv.toScanReady with ⟨hnull, hall⟩ | ⟨page, hpage, hunused, htake⟩
  · rw [hnull]
    exact iff_of_true rfl (outstanding_eq_range hinv hall)
  · rw [htake]
    refine iff_of_false (hregion.pageAddress hpage).2.1 fun heq ↦ ?_
    have hmem : page.toNat ∈ outstanding := by
      rw [heq]
      exact Finset.mem_range.mpr hpage
    rw [(hinv.used_iff _ hpage).mpr hmem] at hunused
    cases hunused

/-- No page is free exactly when the free count is zero. -/
theorem outstanding_eq_range_iff (hinv : PmmInvariant s outstanding) :
    outstanding = Finset.range s.pmmTotalPages.toNat ↔ pmmFreeCount s = 0#64 := by
  have hcount := hinv.free_add_card
  have hsubset : outstanding ⊆ Finset.range s.pmmTotalPages.toNat := fun page hpage ↦
    Finset.mem_range.mpr (hinv.outstanding_lt page hpage)
  rw [pmmFreeCount, ← BitVec.toNat_inj, BitVec.toNat_ofNat, Nat.zero_mod]
  constructor
  · intro heq
    rw [heq, Finset.card_range] at hcount
    omega
  · intro hzero
    refine Finset.eq_of_subset_of_card_le hsubset ?_
    rw [Finset.card_range]
    omega

/-- A page that `pmm_alloc` returns is aligned, inside the region and not outstanding. -/
theorem pmmAlloc_page {base : Word} {total : ℕ} (hregion : RegionOf s base total)
    (hinv : PmmInvariant s outstanding) (hresult : (pmmAlloc s).1 ≠ 0#64) :
    (pmmAlloc s).1.toNat % 4096 = 0 ∧ base.toNat ≤ (pmmAlloc s).1.toNat ∧
      (pmmAlloc s).1.toNat < base.toNat + total * 4096 ∧
      pageIndex base (pmmAlloc s).1 ∉ outstanding := by
  obtain ⟨rfl, rfl, hne, hmod, hfits⟩ := hregion
  have hregion : RegionOf s s.pmmBase s.pmmTotalPages.toNat := ⟨rfl, rfl, hne, hmod, hfits⟩
  rcases pmmAlloc_cases hinv.toScanReady with ⟨hnull, -⟩ | ⟨page, hpage, hunused, htake⟩
  · rw [hnull] at hresult
    exact absurd rfl hresult
  · obtain ⟨haddress, -, hindex⟩ := hregion.pageAddress hpage
    rw [htake]
    refine ⟨?_, ?_, ?_, ?_⟩
    · rw [haddress]
      omega
    · rw [haddress]
      omega
    · rw [haddress]
      omega
    · rw [hindex, ← hinv.used_iff _ hpage, hunused]
      exact Bool.false_ne_true

/-- `pmm_free` ignores NULL, pointers outside the region and pages that are free. -/
theorem pmmFree_ignored {base : Word} {total : ℕ} (hregion : RegionOf s base total)
    (hinv : PmmInvariant s outstanding) {ptr : Word}
    (hptr : ptr = 0#64 ∨ ptr.toNat < base.toNat ∨ base.toNat + total * 4096 ≤ ptr.toNat ∨
      pageIndex base ptr ∉ outstanding) : pmmFree s ptr = s := by
  obtain ⟨rfl, rfl, -, -, -⟩ := hregion
  rcases pmmFree_cases s ptr with ⟨hsame, -⟩ | ⟨page, hnamed, hused, -⟩
  · exact hsame
  · have hlt := regionPage_lt hnamed
    simp only [regionPage, Option.ite_none_right_eq_some, Option.some.injEq] at hnamed
    obtain ⟨⟨hne, hge, -⟩, hindex⟩ := hnamed
    rcases hptr with hnull | hbelow | habove | hfree
    · exact absurd hnull hne
    · omega
    · rw [pageIndex] at hindex
      omega
    · rw [hindex] at hfree
      exact absurd ((hinv.used_iff page hlt).mp hused) hfree

/-- What holds of the allocator in a state reached by a history of calls, for a region of `total`
pages at `base`. -/
structure PmmCorrect (base : Word) (total : ℕ) (events : List PmmEvent) (s : Pmm) : Prop where
  region : s.pmmBase = base ∧ s.pmmTotalPages.toNat = total ∧ base.toNat % 4096 = 0
  /-- The history is one of an abstract set of free pages, which are those not outstanding. -/
  refines : (pageSet total).Run (events.map (observePage base total))
    (Finset.range total \ outstandingPages base total events)
  /-- An allocation fails exactly when every page is outstanding. -/
  null_iff_outstanding : (pmmAlloc s).1 = 0#64 ↔
    outstandingPages base total events = Finset.range total
  null_iff_count : (pmmAlloc s).1 = 0#64 ↔ pmmFreeCount s = 0#64
  /-- A page allocated is an aligned page of the region that is not outstanding. -/
  alloc_page : (pmmAlloc s).1 ≠ 0#64 → (pmmAlloc s).1.toNat % 4096 = 0 ∧
    base.toNat ≤ (pmmAlloc s).1.toNat ∧ (pmmAlloc s).1.toNat < base.toNat + total * 4096 ∧
    pageIndex base (pmmAlloc s).1 ∉ outstandingPages base total events
  /-- The count is the number of pages not outstanding, and never underflows. -/
  outstanding_lt : ∀ page ∈ outstandingPages base total events, page < total
  free_count : (pmmFreeCount s).toNat + (outstandingPages base total events).card = total
  /-- Every bit of the bitmap past the region stays set. -/
  tail_used : ∀ page, total ≤ page → page < bitmapSize * 64 →
    pmmIsUsed s.bitmap (BitVec.ofNat 64 page) = true
  last_lt : s.pmmLastAlloc.toNat < total ∨ (total = 0 ∧ s.pmmLastAlloc.toNat = 0)
  /-- Frees that name no outstanding page change nothing. -/
  free_ignored : ∀ ptr : Word, (ptr = 0#64 ∨ ptr.toNat < base.toNat ∨
    base.toNat + total * 4096 ≤ ptr.toNat ∨
    pageIndex base ptr ∉ outstandingPages base total events) → pmmFree s ptr = s

/-- The page allocator is correct along every run from `pmm_init`. Assumes: the region does not
start at address zero and does not wrap. -/
theorem pmm_run_correct (hbase : regionBase memBase ≠ 0#64)
    (hfits : (regionBase memBase).toNat + regionPages memSize * 4096 ≤ 2 ^ 64)
    {events : List PmmEvent} (hrun : (pmmSystem memBase memSize).Run events s) :
    PmmCorrect (regionBase memBase) (regionPages memSize) events s := by
  obtain ⟨hregion, hinv⟩ := PmmInvariant.of_run hbase hfits hrun
  have htotal := hregion.total_eq
  have hnull := pmmAlloc_null_iff hregion hinv
  exact
    { region := ⟨hregion.base_eq, htotal, hregion.base_mod⟩
      refines := pmm_refines_pageSet hbase hfits hrun
      null_iff_outstanding := hnull
      null_iff_count := by rw [hnull, ← outstanding_eq_range_iff hinv, htotal]
      alloc_page := pmmAlloc_page hregion hinv
      outstanding_lt := fun page hpage ↦ htotal ▸ hinv.outstanding_lt page hpage
      free_count := htotal ▸ hinv.free_add_card
      tail_used := by
        intro page hge hlt
        have hbound : page < 2048 * 64 := hlt
        rw [pmmIsUsed_eq, BitVec.toNat_ofNat, Nat.mod_eq_of_lt (by omega)]
        exact hinv.tail_used page (by omega) (by omega)
      last_lt := htotal ▸ hinv.last_lt
      free_ignored := fun _ ↦ pmmFree_ignored hregion hinv }

/-- The region of the default memory map, 32 MB from 2 MB, after one allocation and one free. -/
theorem pmm_run_correct_default :
    PmmCorrect (regionBase 0x200000#64) (regionPages 0x2000000#64)
      [.alloc (pmmAlloc (pmmInit Pmm.bss 0x200000#64 0x2000000#64)).1, .free 0x200000#64]
      (pmmFree (pmmAlloc (pmmInit Pmm.bss 0x200000#64 0x2000000#64)).2 0x200000#64) := by
  have hstart : (pmmSystem 0x200000#64 0x2000000#64).Run []
      (pmmInit Pmm.bss 0x200000#64 0x2000000#64) :=
    TransitionSystem.Run.start ⟨Pmm.bss, rfl⟩
  exact pmm_run_correct (by decide) (by decide)
    ((hstart.step (alloc_step _ _ _)).step (free_step _ _ _ _))

end Colix.Mm
