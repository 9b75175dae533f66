import Colix.Mm.PmmRefinement

/-!
# The pages of the region

`pmm_init` rounds the base of its region up and the page count down, one without the other: the last
page ends above the region when the rounding up adds more than the rounding down takes.
`pagesInside_iff` says exactly when every page `pmm_alloc` returns lies inside.

One direction follows the base and the count through a run. For the other, `exists_run_alloc` shows
that every page of the region is returned in some run.
-/

set_option autoImplicit false
set_option relaxedAutoImplicit false

namespace Colix.Mm

open Foundation

/-- Every page that `pmm_alloc` returns after `pmm_init(mem_base, mem_size)`, whatever was allocated
and freed before, lies inside the region. -/
def PagesInside (memBase memSize : Word) : Prop :=
  ∀ events s, (pmmSystem memBase memSize).Run events s → (pmmAlloc s).1 ≠ 0#64 →
    memBase.toNat ≤ (pmmAlloc s).1.toNat ∧
      (pmmAlloc s).1.toNat + 4096 ≤ memBase.toNat + memSize.toNat

/-- The number of bytes from an address up to the next page boundary. -/
def bytesToBoundary (address : Word) : ℕ :=
  (4096 - address.toNat % 4096) % 4096

/-- The region has no page, or is larger than the allocator manages, or what is left of its size
after whole pages makes up for the rounding of its base. -/
def RoundingFits (memBase memSize : Word) : Prop :=
  memSize.toNat < 4096 ∨ 131073 * 4096 ≤ memSize.toNat ∨
    bytesToBoundary memBase ≤ memSize.toNat % 4096

variable {memBase memSize : Word} {s next : Pmm} {events : List PmmEvent}

/-- The rounded base, when the region has a page. -/
theorem toNat_regionBase (hend : memBase.toNat + memSize.toNat ≤ 2 ^ 64)
    (hpage : 4096 ≤ memSize.toNat) :
    (regionBase memBase).toNat = memBase.toNat + bytesToBoundary memBase := by
  have hround : (regionBase memBase).toNat =
      (memBase.toNat + (2 ^ 12 - 1)) % 2 ^ 64 / 2 ^ 12 * 2 ^ 12 :=
    toNat_alignUp (by decide : 12 < 64) memBase
  rw [hround, bytesToBoundary]
  omega

/-- Every page of the region lies inside it exactly when the roundings fit. -/
theorem regionEnd_le_iff (hend : memBase.toNat + memSize.toNat ≤ 2 ^ 64)
    (hpage : 4096 ≤ memSize.toNat) :
    (regionBase memBase).toNat + regionPages memSize * 4096 ≤ memBase.toNat + memSize.toNat ↔
      RoundingFits memBase memSize := by
  rw [toNat_regionBase hend hpage, regionPages, RoundingFits, bytesToBoundary]
  omega

/-- The region does not wrap, rounded as it is. -/
theorem regionEnd_le (hend : memBase.toNat + memSize.toNat ≤ 2 ^ 64)
    (hpage : 4096 ≤ memSize.toNat) :
    (regionBase memBase).toNat + regionPages memSize * 4096 ≤ 2 ^ 64 := by
  rw [toNat_regionBase hend hpage, regionPages, bytesToBoundary]
  omega

/-! ### The region along a run -/

/-- A state of the scan over the region of a `pmm_init`. -/
structure ScansRegion (memBase memSize : Word) (s : Pmm) : Prop extends ScanReady s where
  base_eq : s.pmmBase = regionBase memBase
  total_eq : s.pmmTotalPages.toNat = regionPages memSize

/-- The step lemma: a call keeps the region. -/
theorem ScansRegion.step (hscans : ScansRegion memBase memSize s) {event : PmmEvent}
    (hstep : (pmmSystem memBase memSize).step s event next) : ScansRegion memBase memSize next := by
  obtain ⟨hready, hbase, htotal⟩ := hscans
  cases event with
  | alloc result =>
    change pmmAlloc s = (result, next) at hstep
    rcases pmmAlloc_cases hready with ⟨hnull, -⟩ | ⟨page, hpage, -, htake⟩
    · rw [hnull, Prod.mk.injEq] at hstep
      obtain ⟨-, rfl⟩ := hstep
      exact ⟨hready, hbase, htotal⟩
    · rw [htake, Prod.mk.injEq] at hstep
      obtain ⟨-, rfl⟩ := hstep
      refine ⟨⟨hready.total_le, .inl ?_⟩, hbase, htotal⟩
      change ((page + 1#64) % s.pmmTotalPages).toNat < s.pmmTotalPages.toNat
      rw [toNat_nextHint hready hpage]
      exact Nat.mod_lt _ (by omega)
  | free ptr =>
    change pmmFree s ptr = next at hstep
    rcases pmmFree_cases s ptr with ⟨hsame, -⟩ | ⟨page, -, -, hrelease⟩
    · rw [hsame] at hstep
      subst hstep
      exact ⟨hready, hbase, htotal⟩
    · rw [hrelease] at hstep
      subst hstep
      exact ⟨⟨hready.total_le, hready.last_lt⟩, hbase, htotal⟩

/-- The run lemma. -/
theorem ScansRegion.of_run (hrun : (pmmSystem memBase memSize).Run events s) :
    ScansRegion memBase memSize s := by
  refine hrun.invariant (motive := ScansRegion memBase memSize) ?_ ?_
  · rintro _ ⟨before, rfl⟩
    exact ⟨(PmmInvariant.init before memBase memSize).toScanReady, rfl,
      toNat_totalPages_pmmInit before memBase memSize⟩
  · exact fun s event next hscans hstep ↦ hscans.step hstep

/-- What `pmm_alloc` returns is a page of the rounded region. -/
theorem ScansRegion.alloc (hscans : ScansRegion memBase memSize s)
    (hend : memBase.toNat + memSize.toNat ≤ 2 ^ 64) (hresult : (pmmAlloc s).1 ≠ 0#64) :
    4096 ≤ memSize.toNat ∧ ∃ page < regionPages memSize,
      (pmmAlloc s).1.toNat = (regionBase memBase).toNat + page * 4096 := by
  obtain ⟨hready, hbase, htotal⟩ := hscans
  rcases pmmAlloc_cases hready with ⟨hnull, -⟩ | ⟨page, hpage, -, htake⟩
  · rw [hnull] at hresult
    exact absurd rfl hresult
  · have hsize : 4096 ≤ memSize.toNat := by
      rw [htotal, regionPages] at hpage
      omega
    rw [htotal] at hpage
    refine ⟨hsize, page.toNat, hpage, ?_⟩
    rw [htake, hbase]
    exact toNat_pageAddress (regionEnd_le hend hsize) hpage

/-! ### Every page is returned -/

/-- From a state in which a page is not outstanding, allocating goes on until it is returned. -/
theorem exists_run_alloc {outstanding : Finset ℕ} {page : ℕ}
    (hrun : (pmmSystem memBase memSize).Run events s) (hinv : PmmInvariant s outstanding)
    (hpage : page < regionPages memSize) (hfree : page ∉ outstanding) :
    ∃ events s, (pmmSystem memBase memSize).Run events s ∧
      (pmmAlloc s).1 = regionBase memBase + BitVec.ofNat 64 page * pageSize := by
  -- each allocation of another page leaves fewer pages free
  induction hcount : s.pmmFreePages.toNat using Nat.strong_induction_on generalizing
    events s outstanding with
  | _ count ih =>
    have hscans := ScansRegion.of_run hrun
    have hlt : page < s.pmmTotalPages.toNat := by rw [hscans.total_eq]; exact hpage
    rcases pmmAlloc_cases hinv.toScanReady with ⟨-, hall⟩ | ⟨taken, htaken, hunused, htake⟩
    · exact absurd ((hinv.used_iff page hlt).mp (hall page hlt)) hfree
    · by_cases heq : taken.toNat = page
      · refine ⟨events, s, hrun, ?_⟩
        rw [htake, hscans.base_eq, ← heq, BitVec.ofNat_toNat, BitVec.setWidth_eq]
      · have hnext := hinv.take htaken hunused
        have hnotMem : taken.toNat ∉ outstanding := by
          rw [← hinv.used_iff _ htaken, hunused]
          exact Bool.false_ne_true
        have hbefore := hinv.free_add_card
        have hafter := hnext.free_add_card
        rw [Finset.card_insert_of_notMem hnotMem] at hafter
        have hstep := hrun.step (alloc_step memBase memSize s)
        rw [htake] at hstep
        refine ih _ ?_ hstep hnext ?_ rfl
        · rw [← hcount]
          dsimp only at hafter ⊢
          omega
        · rw [Finset.mem_insert, not_or]
          exact ⟨fun hsame ↦ heq hsame.symm, hfree⟩

/-- For every region of addresses that does not wrap, the pages returned lie inside it exactly when
the roundings fit. -/
theorem pagesInside_iff (hend : memBase.toNat + memSize.toNat ≤ 2 ^ 64) :
    PagesInside memBase memSize ↔ RoundingFits memBase memSize := by
  constructor
  · intro hinside
    by_contra hrounding
    have hsize : 4096 ≤ memSize.toNat := by
      by_contra hsmall
      exact hrounding (.inl (by omega))
    have hoverlap := (regionEnd_le_iff hend hsize).not.mpr hrounding
    have hfits := regionEnd_le hend hsize
    have hbase := toNat_regionBase hend hsize
    have hpages : 0 < regionPages memSize ∧ regionPages memSize ≤ 131072 := by
      rw [regionPages]
      omega
    -- the last page of the region
    have hstart : (pmmSystem memBase memSize).Run [] (pmmInit Pmm.bss memBase memSize) :=
      TransitionSystem.Run.start ⟨Pmm.bss, rfl⟩
    have hlast : regionPages memSize - 1 < regionPages memSize := by omega
    obtain ⟨events, s, hrun, hresult⟩ := exists_run_alloc hstart
      (PmmInvariant.init Pmm.bss memBase memSize) hlast (Finset.notMem_empty _)
    have hnat : (BitVec.ofNat 64 (regionPages memSize - 1)).toNat = regionPages memSize - 1 := by
      rw [BitVec.toNat_ofNat, Nat.mod_eq_of_lt (by omega)]
    have haddress := toNat_pageAddress hfits (hnat.symm ▸ hlast)
    rw [← hresult, hnat] at haddress
    have hne : (pmmAlloc s).1 ≠ 0#64 := by
      intro hnull
      rw [hnull, BitVec.toNat_ofNat] at haddress
      omega
    have hbounds := hinside events s hrun hne
    omega
  · intro hrounding events s hrun hresult
    obtain ⟨hsize, page, hpage, haddress⟩ := (ScansRegion.of_run hrun).alloc hend hresult
    have hregion := (regionEnd_le_iff hend hsize).mpr hrounding
    have hbase := toNat_regionBase hend hsize
    omega

/-- The default memory map, 32 MB from 1 MB: every page lies inside. -/
theorem pagesInside_iff_default :
    PagesInside 0x100000#64 0x2000000#64 ∧ RoundingFits 0x100000#64 0x2000000#64 := by
  have hrounding : RoundingFits 0x100000#64 0x2000000#64 := .inr (.inr (by decide))
  exact ⟨(pagesInside_iff (by decide)).mpr hrounding, hrounding⟩

/-- The region of a memory map entry of 32 MB and a page that starts in the middle of a page: the
last page returned ends after it. -/
theorem page_not_inside : ¬ PagesInside 0x200800#64 0x2001000#64 := by
  intro hinside
  have hstart : (pmmSystem 0x200800#64 0x2001000#64).Run []
      (pmmInit Pmm.bss 0x200800#64 0x2001000#64) := TransitionSystem.Run.start ⟨Pmm.bss, rfl⟩
  obtain ⟨events, s, hrun, hresult⟩ := exists_run_alloc hstart
    (PmmInvariant.init Pmm.bss 0x200800#64 0x2001000#64)
    (by decide : 0x2000 < regionPages 0x2001000#64) (Finset.notMem_empty _)
  have hbounds := hinside events s hrun (by rw [hresult]; decide)
  rw [hresult] at hbounds
  exact absurd hbounds.2 (by decide)

end Colix.Mm
