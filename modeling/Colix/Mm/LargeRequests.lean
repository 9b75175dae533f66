import Colix.Mm.HeapRun

/-!
# Requests larger than the heap

`kmalloc` adds three times in a row without a check: 15 to round the request up, 24 for the header,
and `heap_ptr`. For a request above `KHEAP_SIZE` whose sums stay below 2^64 no free block is large
enough and the end of the heap is passed, so the answer is NULL and nothing changes. From 2^64 on
the comparison sees the wrapped sum, which is at most 24 bytes above `heap_ptr`.

`anySizeSystem` runs the heap with requests of every size. `kmalloc_refuses_iff` says exactly which
requests above `KHEAP_SIZE` are refused, in every run whose earlier such requests were.
-/

set_option autoImplicit false
set_option relaxedAutoImplicit false

namespace Colix.Mm

open Foundation

/-! ### Runs with requests of every size -/

/-- The runs of `heapSystem` without the bound on requests. -/
def anySizeSystem : TransitionSystem HeapState HeapEvent where
  start := heapSystem.start
  step s event next :=
    match event with
    | .kmalloc size result =>
      kmalloc s.heap size = some (result, next.heap) ∧ next.live = addLive s.live result size
    | .kfree ptr => heapSystem.step s (.kfree ptr) next
    | .write => heapSystem.step s .write next

/-- NULL, with `heap_ptr`, the list and memory as they were. -/
def Refuses (s : Heap) (size : Word) : Prop :=
  kmalloc s size = some (0#64, s)

/-- The request rounded up to 16 bytes, in the integers. -/
def roundedRequest (size : Word) : ℕ :=
  (size.toNat + 15) / 16 * 16

/-- `heap_ptr` after carving the request, in the integers. -/
def carvedEnd (s : Heap) (size : Word) : ℕ :=
  s.heapPtr.toNat + 24 + roundedRequest size

/-- None of the three sums of `kmalloc` wraps; or what the last one wraps to still lies above the
heap, and no block is free if the rounding wrapped to 0. -/
def SumsRefuse (s : Heap) (size : Word) : Prop :=
  carvedEnd s size < 2 ^ 64 ∨
    0x800000 < carvedEnd s size - 2 ^ 64 ∧
      (2 ^ 64 ≤ size.toNat + 15 → ∀ blk ∈ heapBlocks s, blkFree s.memory blk = 0#32)

/-- The requests above `KHEAP_SIZE` are among those that `SumsRefuse` describes. -/
def LargeRefused (s : HeapState) : HeapEvent → Prop
  | .kmalloc size _ => kheapSize < size → SumsRefuse s.heap size
  | _ => True

/-! ### One request -/

section Request

variable {s : Heap} {blocks : List Word} {size : Word}

/-- The rounded size wraps to 0 when the request is within 15 bytes of 2^64. -/
theorem toNat_alignUp_16_wrap (size : Word) :
    (alignUp size 16#64).toNat =
      if size.toNat + 15 < 2 ^ 64 then roundedRequest size else 0 := by
  have hround := toNat_alignUp (by decide : 4 < 64) size
  rw [show BitVec.ofNat 64 (2 ^ 4) = 16#64 from rfl] at hround
  have hlt := size.isLt
  rw [hround, roundedRequest]
  split_ifs with hfits <;> omega

/-- No block of the heap is as large as the heap. -/
theorem HeapShape.blkSize_lt (hshape : HeapShape s blocks) {blk : Word} (hmem : blk ∈ blocks) :
    (blkSize s.memory blk).toNat < 0x400000 := by
  have hbounds := hshape.block_bounds hmem
  rw [blockExtent] at hbounds
  omega

/-- Carving an end above the heap is refused, and carving one inside gives a pointer. -/
theorem refuses_iff_of_none (hshape : HeapShape s blocks) (hpositive : size ≠ 0#64)
    (hnone : ∀ blk ∈ blocks, fits s.memory (alignUp size 16#64) blk = false) :
    Refuses s size ↔
      0x800000 < (s.heapPtr.toNat + (24 + (alignUp size 16#64).toNat)) % 2 ^ 64 := by
  have hbound := hshape.bound
  have hkheap := toNat_kheap
  have hsum : (s.heapPtr + (headerSize + alignUp size 16#64)).toNat =
      (s.heapPtr.toNat + (24 + (alignUp size 16#64).toNat)) % 2 ^ 64 := by
    rw [BitVec.toNat_add, BitVec.toNat_add, show headerSize.toNat = 24 from rfl, Nat.add_mod_mod]
  have hbelow : kheapStart + kheapSize < s.heapPtr + (headerSize + alignUp size 16#64) ↔
      0x800000 < (s.heapPtr.toNat + (24 + (alignUp size 16#64).toNat)) % 2 ^ 64 := by
    rw [BitVec.lt_def, hsum]
    rfl
  rw [Refuses, kmalloc_of_none hshape hpositive hnone, ← hbelow]
  split_ifs with habove
  · exact iff_of_true rfl habove
  · refine iff_of_false (fun hnull ↦ ?_) habove
    rw [Option.some.injEq, Prod.mk.injEq] at hnull
    have hpayload : (s.heapPtr + headerSize).toNat = s.heapPtr.toNat + 24 := by
      rw [BitVec.toNat_add, show headerSize.toNat = 24 from rfl, Nat.mod_eq_of_lt (by omega)]
    rw [hnull.1] at hpayload
    exact absurd hpayload (by simp)

/-- A request for which a free block is large enough is not refused. -/
theorem not_refuses_of_fits (hshape : HeapShape s blocks) (hpositive : size ≠ 0#64)
    (hfits : ∃ blk ∈ blocks, fits s.memory (alignUp size 16#64) blk = true) :
    ¬ Refuses s size := by
  obtain ⟨blk, hmem, -, hresult⟩ := kmalloc_of_fits hshape hpositive hfits
  rw [Refuses, hresult, Option.some.injEq, Prod.mk.injEq]
  exact fun hnull ↦ (hshape.payload hmem).2.1 hnull.1

/-- When a request above `KHEAP_SIZE` is refused. -/
theorem HeapShape.refuses_iff (hshape : HeapShape s blocks) (hlarge : kheapSize < size) :
    Refuses s size ↔ SumsRefuse s size := by
  obtain rfl := hshape.eq_heapBlocks
  have hkheap := toNat_kheap
  have hsize := size.isLt
  rw [BitVec.lt_def, hkheap.2] at hlarge
  have hpositive : size ≠ 0#64 := by
    rintro rfl
    exact absurd hlarge (by decide)
  have hbottom := hshape.tiles.bottom_le
  have hbound := hshape.bound
  have haligned := toNat_alignUp_16_wrap size
  by_cases hrounds : size.toNat + 15 < 2 ^ 64
  · -- the rounded request is above every block
    rw [if_pos hrounds] at haligned
    have hnone : ∀ blk ∈ heapBlocks s, fits s.memory (alignUp size 16#64) blk = false := by
      intro blk hmem
      have hsmall := hshape.blkSize_lt hmem
      rw [fits, decide_eq_false_iff_not, BitVec.le_def, haligned, roundedRequest]
      omega
    rw [refuses_iff_of_none hshape hpositive hnone, haligned, SumsRefuse, carvedEnd, roundedRequest]
    omega
  · -- the rounded request is 0, and every free block is large enough
    rw [if_neg hrounds] at haligned
    have hfits : ∀ blk, fits s.memory (alignUp size 16#64) blk = true ↔
        blkFree s.memory blk ≠ 0#32 := by
      intro blk
      rw [fits, decide_eq_true_iff, BitVec.le_def, haligned]
      exact and_iff_left (Nat.zero_le _)
    by_cases hused : ∀ blk ∈ heapBlocks s, blkFree s.memory blk = 0#32
    · have hnone : ∀ blk ∈ heapBlocks s, fits s.memory (alignUp size 16#64) blk = false := by
        intro blk hmem
        rw [← Bool.not_eq_true, hfits, not_not]
        exact hused blk hmem
      rw [refuses_iff_of_none hshape hpositive hnone, haligned, SumsRefuse, carvedEnd,
        roundedRequest, and_iff_left fun _ ↦ hused]
      omega
    · refine iff_of_false (not_refuses_of_fits hshape hpositive ?_) ?_
      · push Not at hused
        obtain ⟨blk, hmem, hfree⟩ := hused
        exact ⟨blk, hmem, (hfits blk).mpr hfree⟩
      · rintro (hbelow | ⟨-, hnoneFree⟩)
        · rw [carvedEnd, roundedRequest] at hbelow
          omega
        · exact hused (hnoneFree (by omega))

end Request

/-! ### Runs -/

section Run

variable {s next : HeapState} {events : List HeapEvent}

/-- A request is either one that fits in the heap, or refused. -/
theorem HeapInvariant.step_anySize {blocks : List Word} {event : HeapEvent}
    (hinv : HeapInvariant s blocks)
    (hstep : (anySizeSystem.restrict LargeRefused).step s event next) :
    ∃ after, HeapInvariant next after := by
  obtain ⟨hmet, hstep⟩ := hstep
  cases event with
  | kmalloc size result =>
    by_cases hlarge : kheapSize < size
    · obtain ⟨heap, live⟩ := next
      obtain ⟨hresult, rfl⟩ := hstep
      have hrefuses : Refuses s.heap size := (hinv.shape.refuses_iff hlarge).mpr (hmet hlarge)
      rw [Refuses, hresult, Option.some.injEq, Prod.mk.injEq] at hrefuses
      obtain ⟨rfl, rfl⟩ := hrefuses
      refine ⟨blocks, ?_⟩
      rw [Mm.addLive, if_pos rfl]
      exact hinv
    · have hfits : heapSystem.step s (.kmalloc size result) next :=
        ⟨BitVec.not_lt.mp hlarge, hstep⟩
      exact hinv.step hfits
  | kfree ptr =>
    have hfree : heapSystem.step s (.kfree ptr) next := hstep
    exact hinv.step hfree
  | write =>
    have hwrite : heapSystem.step s .write next := hstep
    exact hinv.step hwrite

/-- The run lemma: while the requests above `KHEAP_SIZE` are refused the heap keeps its shape. -/
theorem HeapInvariant.of_anySize (hrun : (anySizeSystem.restrict LargeRefused).Run events s) :
    ∃ blocks, HeapInvariant s blocks := by
  refine hrun.invariant (motive := fun s ↦ ∃ blocks, HeapInvariant s blocks) ?_ ?_
  · exact fun s hstart ↦ ⟨[], HeapInvariant.start hstart⟩
  · rintro s event next ⟨blocks, hinv⟩ hstep
    exact hinv.step_anySize hstep

/-- In every run whose earlier requests above `KHEAP_SIZE` met `SumsRefuse`, the next one is
refused exactly when it meets it. -/
theorem kmalloc_refuses_iff (hrun : (anySizeSystem.restrict LargeRefused).Run events s)
    {size : Word} (hlarge : kheapSize < size) : Refuses s.heap size ↔ SumsRefuse s.heap size := by
  obtain ⟨blocks, hinv⟩ := HeapInvariant.of_anySize hrun
  exact hinv.shape.refuses_iff hlarge

/-- The heap before its first call, in zeroed memory. -/
def emptyHeap : HeapState where
  heap := ⟨fun _ ↦ 0#8, kheapStart, 0#64⟩
  live := fun _ ↦ none

theorem emptyHeap_start : anySizeSystem.start emptyHeap := ⟨rfl, rfl, rfl⟩

/-- The empty heap refuses a request for one byte more than it has. -/
theorem kmalloc_refuses_iff_empty :
    Refuses emptyHeap.heap 0x400001#64 ↔ SumsRefuse emptyHeap.heap 0x400001#64 :=
  kmalloc_refuses_iff (TransitionSystem.Run.start emptyHeap_start) (by decide)

/-- The empty heap grants 2^64 - 1 bytes: the request rounds to 0. -/
theorem largeRequest_granted : ¬ ∀ events s, anySizeSystem.Run events s →
    ∀ size, kheapSize < size → Refuses s.heap size := by
  intro hrefuses
  have hrefused := hrefuses [] emptyHeap (TransitionSystem.Run.start emptyHeap_start)
    0xFFFFFFFFFFFFFFFF#64 (by decide)
  have hshape : HeapShape emptyHeap.heap [] := (HeapInvariant.start emptyHeap_start).shape
  rw [refuses_iff_of_none hshape (by decide) (by simp)] at hrefused
  exact absurd hrefused (by decide)

end Run

end Colix.Mm
