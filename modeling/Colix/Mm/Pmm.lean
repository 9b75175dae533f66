import Mathlib.Data.Finset.Card
import Colix.Foundation.BitSet
import Colix.Foundation.CyclicScan
import Colix.Types

/-!
# The physical page allocator

`kernel/mm/pmm.c`: one bit per page, a next-fit scan from a moving hint, and a separate count of
free pages. The definitions follow the source; console output is left out. After them come the
forms the proofs use: the bit operations are those of `Foundation.BitSet`, the scan is a
`cyclicFind`, and `pmmAlloc_cases` and `pmmFree_cases` say all that a call can do.
-/

set_option autoImplicit false
set_option relaxedAutoImplicit false

namespace Colix.Mm

open Foundation

/-! ### The source -/

/-- `PMM_MAX_PAGES`: 512 MB of pages. -/
abbrev pmmMaxPages : Word := 131072#64

/-- `BITMAP_SIZE`, in words. -/
abbrev bitmapSize : ℕ := 2048

/-- The static state of `pmm.c`. A set bit marks a page in use. -/
structure Pmm where
  bitmap : ℕ → Word
  pmmBase : Word
  pmmTotalPages : Word
  pmmFreePages : Word
  pmmLastAlloc : Word

/-- The static state before `pmm_init`, all zero. -/
def Pmm.bss : Pmm where
  bitmap := fun _ ↦ 0#64
  pmmBase := 0#64
  pmmTotalPages := 0#64
  pmmFreePages := 0#64
  pmmLastAlloc := 0#64

/-- `pmm_set_used`. -/
def pmmSetUsed (bitmap : ℕ → Word) (page : Word) : ℕ → Word :=
  Function.update bitmap (page / 64#64).toNat
    (bitmap (page / 64#64).toNat ||| (1#64 <<< (page % 64#64)))

/-- `pmm_set_free`. -/
def pmmSetFree (bitmap : ℕ → Word) (page : Word) : ℕ → Word :=
  Function.update bitmap (page / 64#64).toNat
    (bitmap (page / 64#64).toNat &&& ~~~(1#64 <<< (page % 64#64)))

/-- `pmm_is_used`. -/
def pmmIsUsed (bitmap : ℕ → Word) (page : Word) : Bool :=
  bitmap (page / 64#64).toNat &&& (1#64 <<< (page % 64#64)) != 0#64

/-- `pmm_init`: all pages in use, then the first `mem_size / PAGE_SIZE` of them free. -/
def pmmInit (s : Pmm) (memBase memSize : Word) : Pmm :=
  let total := memSize / pageSize
  let total := if pmmMaxPages < total then pmmMaxPages else total
  let bitmap := (List.range bitmapSize).foldl
    (fun bitmap i ↦ Function.update bitmap i (~~~0#64)) s.bitmap
  let bitmap := (List.range total.toNat).foldl
    (fun bitmap i ↦ pmmSetFree bitmap (BitVec.ofNat 64 i)) bitmap
  { bitmap := bitmap
    pmmBase := alignUp memBase pageSize
    pmmTotalPages := total
    pmmFreePages := total
    pmmLastAlloc := 0#64 }

/-- The pages `pmm_alloc`'s loop looks at, in order. -/
def pmmScanOrder (s : Pmm) : List Word :=
  (List.range s.pmmTotalPages.toNat).map fun i ↦
    (s.pmmLastAlloc + BitVec.ofNat 64 i) % s.pmmTotalPages

/-- `pmm_alloc`: the address of the first page of the scan that is not in use, or NULL. -/
def pmmAlloc (s : Pmm) : Word × Pmm :=
  match (pmmScanOrder s).find? fun page ↦ !pmmIsUsed s.bitmap page with
  | some page =>
    (s.pmmBase + page * pageSize,
      { s with
        bitmap := pmmSetUsed s.bitmap page
        pmmFreePages := s.pmmFreePages - 1#64
        pmmLastAlloc := (page + 1#64) % s.pmmTotalPages })
  | none => (0#64, s)

/-- `pmm_free`: pointers outside the region and pages already free are ignored. -/
def pmmFree (s : Pmm) (ptr : Word) : Pmm :=
  if ptr = 0#64 then s
  else if ptr < s.pmmBase then s
  else
    let page := (ptr - s.pmmBase) / pageSize
    if s.pmmTotalPages ≤ page then s
    else if !pmmIsUsed s.bitmap page then s
    else
      { s with
        bitmap := pmmSetFree s.bitmap page
        pmmFreePages := s.pmmFreePages + 1#64 }

/-- `pmm_free_count`. -/
def pmmFreeCount (s : Pmm) : Word :=
  s.pmmFreePages

/-- `pmm_alloc_page`. -/
def pmmAllocPage (s : Pmm) : Word × Pmm :=
  pmmAlloc s

/-- `pmm_free_page`. -/
def pmmFreePage (s : Pmm) (page : Word) : Pmm :=
  pmmFree s page

/-! ### The bit operations as set operations -/

theorem toNat_div_64 (page : Word) : (page / 64#64).toNat = page.toNat / 64 := by
  simp

theorem shift_mod_64 (page : Word) : 1#64 <<< (page % 64#64) = bitMask 64 page.toNat := by
  rw [BitVec.shiftLeft_eq', BitVec.toNat_umod]
  rfl

theorem pmmSetUsed_eq (bitmap : ℕ → Word) (page : Word) :
    pmmSetUsed bitmap page = bitSet bitmap page.toNat := by
  rw [pmmSetUsed, toNat_div_64, shift_mod_64, bitSet]

theorem pmmSetFree_eq (bitmap : ℕ → Word) (page : Word) :
    pmmSetFree bitmap page = bitClear bitmap page.toNat := by
  rw [pmmSetFree, toNat_div_64, shift_mod_64, bitClear]

theorem pmmIsUsed_eq (bitmap : ℕ → Word) (page : Word) :
    pmmIsUsed bitmap page = bitTest bitmap page.toNat := by
  rw [pmmIsUsed, toNat_div_64, shift_mod_64, bitTest]

/-! ### What each call can do -/

/-- The page number of an address of the region that starts at `base`. -/
def pageIndex (base addr : Word) : ℕ :=
  (addr.toNat - base.toNat) / 4096

/-- The page number a pointer names in a region of `total` pages, when it names one. -/
def regionPage (base : Word) (total : ℕ) (ptr : Word) : Option ℕ :=
  if ptr ≠ 0#64 ∧ base.toNat ≤ ptr.toNat ∧ pageIndex base ptr < total then
    some (pageIndex base ptr)
  else none

/-- The page a pointer names lies in the region. -/
theorem regionPage_lt {base ptr : Word} {total page : ℕ}
    (hnamed : regionPage base total ptr = some page) : page < total := by
  simp only [regionPage, Option.ite_none_right_eq_some, Option.some.injEq] at hnamed
  omega

/-- The scan hint and the page count stay small enough for the scan's sum not to wrap. -/
structure ScanReady (s : Pmm) : Prop where
  total_le : s.pmmTotalPages.toNat ≤ 131072
  last_lt : s.pmmLastAlloc.toNat < s.pmmTotalPages.toNat ∨
    (s.pmmTotalPages.toNat = 0 ∧ s.pmmLastAlloc.toNat = 0)

theorem toNat_scanned {s : Pmm} (hready : ScanReady s) {offset : ℕ}
    (hoffset : offset < s.pmmTotalPages.toNat) :
    ((s.pmmLastAlloc + BitVec.ofNat 64 offset) % s.pmmTotalPages).toNat =
      (s.pmmLastAlloc.toNat + offset) % s.pmmTotalPages.toNat := by
  have htotal := hready.total_le
  have hlast := hready.last_lt
  rw [BitVec.toNat_umod, BitVec.toNat_add, BitVec.toNat_ofNat,
    Nat.mod_eq_of_lt (by omega : offset < 2 ^ 64),
    Nat.mod_eq_of_lt (by omega : s.pmmLastAlloc.toNat + offset < 2 ^ 64)]

/-- The scan of `pmm_alloc` is a cyclic scan for a page not in use. -/
theorem find_pmmScanOrder {s : Pmm} (hready : ScanReady s) :
    ((pmmScanOrder s).find? fun page ↦ !pmmIsUsed s.bitmap page).map BitVec.toNat =
      cyclicFind s.pmmTotalPages.toNat s.pmmLastAlloc.toNat fun page ↦ !bitTest s.bitmap page := by
  have horder : (pmmScanOrder s).map BitVec.toNat =
      (List.range s.pmmTotalPages.toNat).map fun offset ↦
        (s.pmmLastAlloc.toNat + offset) % s.pmmTotalPages.toNat := by
    rw [pmmScanOrder, List.map_map]
    exact List.map_congr_left fun offset hoffset ↦
      toNat_scanned hready (List.mem_range.mp hoffset)
  rw [cyclicFind, ← horder, List.find?_map]
  congr 2

/-- The next hint is in range. -/
theorem toNat_nextHint {s : Pmm} (hready : ScanReady s) {page : Word}
    (hpage : page.toNat < s.pmmTotalPages.toNat) :
    ((page + 1#64) % s.pmmTotalPages).toNat = (page.toNat + 1) % s.pmmTotalPages.toNat := by
  have htotal := hready.total_le
  rw [BitVec.toNat_umod, BitVec.toNat_add, BitVec.toNat_ofNat,
    Nat.mod_eq_of_lt (by omega : 1 < 2 ^ 64),
    Nat.mod_eq_of_lt (by omega : page.toNat + 1 < 2 ^ 64)]

/-- The address of a page of a region that does not wrap. -/
theorem toNat_pageAddress {base page : Word} {total : ℕ}
    (hregion : base.toNat + total * 4096 ≤ 2 ^ 64) (hpage : page.toNat < total) :
    (base + page * pageSize).toNat = base.toNat + page.toNat * 4096 := by
  have hmul : (page * pageSize).toNat = page.toNat * 4096 := by
    rw [BitVec.toNat_mul, BitVec.toNat_ofNat, Nat.mod_eq_of_lt (by omega : (4096 : ℕ) < 2 ^ 64),
      Nat.mod_eq_of_lt (by omega)]
  rw [BitVec.toNat_add, hmul, Nat.mod_eq_of_lt (by omega)]

/-- All that `pmm_alloc` can do: return NULL with every page in use and nothing changed, or take a
page that was not in use. -/
theorem pmmAlloc_cases {s : Pmm} (hready : ScanReady s) :
    (pmmAlloc s = (0#64, s) ∧ ∀ page < s.pmmTotalPages.toNat, bitTest s.bitmap page = true) ∨
      ∃ page : Word, page.toNat < s.pmmTotalPages.toNat ∧ bitTest s.bitmap page.toNat = false ∧
        pmmAlloc s = (s.pmmBase + page * pageSize,
          { s with
            bitmap := bitSet s.bitmap page.toNat
            pmmFreePages := s.pmmFreePages - 1#64
            pmmLastAlloc := (page + 1#64) % s.pmmTotalPages }) := by
  have hscan := find_pmmScanOrder hready
  cases hfind : (pmmScanOrder s).find? fun page ↦ !pmmIsUsed s.bitmap page with
  | none =>
    left
    rw [hfind, Option.map_none, eq_comm, cyclicFind_eq_none_iff] at hscan
    refine ⟨by simp only [pmmAlloc, hfind], fun page hpage ↦ ?_⟩
    simpa using hscan page hpage
  | some page =>
    right
    rw [hfind, Option.map_some] at hscan
    have haccept := cyclicFind_accept hscan.symm
    refine ⟨page, cyclicFind_lt hscan.symm, by simpa using haccept, ?_⟩
    simp only [pmmAlloc, hfind, pmmSetUsed_eq]

/-- All that `pmm_free` can do: nothing, for a pointer that names no page in use, or release the
page in use that the pointer names. -/
theorem pmmFree_cases (s : Pmm) (ptr : Word) :
    (pmmFree s ptr = s ∧
        ∀ page, regionPage s.pmmBase s.pmmTotalPages.toNat ptr = some page →
          bitTest s.bitmap page = false) ∨
      ∃ page, regionPage s.pmmBase s.pmmTotalPages.toNat ptr = some page ∧
        bitTest s.bitmap page = true ∧
        pmmFree s ptr =
          { s with
            bitmap := bitClear s.bitmap page
            pmmFreePages := s.pmmFreePages + 1#64 } := by
  by_cases hnull : ptr = 0#64
  · left
    exact ⟨by rw [pmmFree, if_pos hnull], fun page hpage ↦ by simp [regionPage, hnull] at hpage⟩
  by_cases hbelow : ptr < s.pmmBase
  · left
    refine ⟨by rw [pmmFree, if_neg hnull, if_pos hbelow], fun page hpage ↦ ?_⟩
    rw [BitVec.lt_def] at hbelow
    rw [regionPage, if_neg (fun h ↦ by omega)] at hpage
    cases hpage
  have hge : s.pmmBase.toNat ≤ ptr.toNat := by
    rw [BitVec.lt_def] at hbelow
    omega
  have hindex : ((ptr - s.pmmBase) / pageSize).toNat = pageIndex s.pmmBase ptr := by
    rw [BitVec.toNat_udiv, BitVec.toNat_sub_of_le (BitVec.le_def.mpr hge), pageIndex]
    rfl
  by_cases habove : s.pmmTotalPages ≤ (ptr - s.pmmBase) / pageSize
  · left
    refine ⟨by rw [pmmFree, if_neg hnull, if_neg hbelow]; exact if_pos habove, fun page hpage ↦ ?_⟩
    rw [BitVec.le_def, hindex] at habove
    rw [regionPage, if_neg (fun h ↦ by omega)] at hpage
    cases hpage
  have hregion :
      regionPage s.pmmBase s.pmmTotalPages.toNat ptr = some (pageIndex s.pmmBase ptr) := by
    rw [BitVec.le_def, hindex] at habove
    exact if_pos ⟨hnull, hge, by omega⟩
  have hused : pmmIsUsed s.bitmap ((ptr - s.pmmBase) / pageSize) =
      bitTest s.bitmap (pageIndex s.pmmBase ptr) := by
    rw [pmmIsUsed_eq, hindex]
  by_cases hfree : bitTest s.bitmap (pageIndex s.pmmBase ptr) = true
  · right
    refine ⟨_, hregion, hfree, ?_⟩
    simp only [pmmFree, if_neg hnull, if_neg hbelow, if_neg habove, hused, hfree, Bool.not_true,
      Bool.false_eq_true, ↓reduceIte, pmmSetFree_eq, hindex]
  · left
    rw [Bool.not_eq_true] at hfree
    refine ⟨?_, fun page hpage ↦ ?_⟩
    · simp only [pmmFree, if_neg hnull, if_neg hbelow, if_neg habove, hused, hfree, Bool.not_false,
        ↓reduceIte]
    · rw [hregion, Option.some.injEq] at hpage
      rw [← hpage, hfree]

end Colix.Mm
