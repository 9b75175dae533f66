import Colix.Foundation.Execution
import Colix.Mm.HeapInvariant

/-!
# The heap along runs

Runs of `kmalloc`, `kfree` and the writes of users. The state adds to the heap the live pointers,
each with the size it was requested for. `HeapInvariant` says that the list of blocks is a tiling
and that every live pointer has a block of its own, large enough, and that the free blocks are those
whose pointer is not live; reuse, carving and freeing write headers only, and users stay out of
headers, so each step keeps it.
`heap_run_correct` states what callers see.
-/

set_option autoImplicit false
set_option relaxedAutoImplicit false

namespace Colix.Mm

open Foundation

/-! ### Runs -/

/-- The heap, and the size each live pointer was requested with. -/
structure HeapState where
  heap : Heap
  live : Word → Option Word

/-- A byte of the block behind a live pointer. -/
def LivePayload (s : HeapState) (ptr : Word) (position : ℕ) : Prop :=
  (s.live ptr).isSome ∧ ptr.toNat ≤ position ∧
    position < ptr.toNat + (blkSize s.heap.memory (ptr - headerSize)).toNat

/-- A call and its result, or a write by the owner of a block or outside the heap. -/
inductive HeapEvent
  | kmalloc (size result : Word)
  | kfree (ptr : Word)
  | write

/-- The pointers live after a `kmalloc`. -/
def addLive (live : Word → Option Word) (result size : Word) : Word → Option Word :=
  if result = 0#64 then live else Function.update live result (some size)

/-- The heap before its first call, whatever is in memory. -/
def heapSystem : TransitionSystem HeapState HeapEvent where
  start s := s.heap.heapPtr = kheapStart ∧ s.heap.heapHead = 0#64 ∧ s.live = fun _ ↦ none
  step s event next :=
    match event with
    | .kmalloc size result =>
      size ≤ kheapSize ∧ kmalloc s.heap size = some (result, next.heap) ∧
        next.live = addLive s.live result size
    | .kfree ptr =>
      (ptr = 0#64 ∨ (s.live ptr).isSome) ∧ next.heap = kfree s.heap ptr ∧
        next.live = Function.update s.live ptr none
    | .write =>
      next.live = s.live ∧ next.heap.heapPtr = s.heap.heapPtr ∧
        next.heap.heapHead = s.heap.heapHead ∧
        ∀ position, next.heap.memory position ≠ s.heap.memory position →
          (∃ ptr, LivePayload s ptr position) ∨ position < 0x400000 ∨ 0x800000 ≤ position

/-! ### The invariant -/

/-- A live pointer has a block on the list, not free and large enough. -/
def HasBlock (s : Heap) (blocks : List Word) (ptr size : Word) : Prop :=
  ∃ blk ∈ blocks, ptr = blk + headerSize ∧ blkFree s.memory blk = 0#32 ∧
    size ≤ blkSize s.memory blk

/-- The blocks tile the heap, each live pointer has a block, and each other block is free. -/
structure HeapInvariant (s : HeapState) (blocks : List Word) : Prop where
  shape : HeapShape s.heap blocks
  live : ∀ ptr size, s.live ptr = some size → HasBlock s.heap blocks ptr size
  free : ∀ blk ∈ blocks, s.live (blk + headerSize) = none → blkFree s.heap.memory blk ≠ 0#32

section Invariant

variable {s next : HeapState} {blocks : List Word} {ptr size result : Word} {position : ℕ}

/-- The pointer to the payload of a block. -/
theorem HeapShape.payload {s : Heap} {blk : Word} (hshape : HeapShape s blocks)
    (hmem : blk ∈ blocks) : (blk + headerSize).toNat = blk.toNat + 24 ∧
      blk + headerSize ≠ 0#64 ∧ blk + headerSize - headerSize = blk := by
  have hbounds := hshape.block_bounds hmem
  have hnat : (blk + headerSize).toNat = blk.toNat + 24 := by
    rw [BitVec.toNat_add, show headerSize.toNat = 24 from rfl, Nat.mod_eq_of_lt (by omega)]
  refine ⟨hnat, fun hzero ↦ ?_, BitVec.add_sub_cancel _ _⟩
  rw [hzero] at hnat
  exact absurd hnat (by simp)

/-- The payload of a live pointer is that of its block. -/
theorem HeapInvariant.livePayload (hinv : HeapInvariant s blocks)
    (hpayload : LivePayload s ptr position) :
    ∃ blk ∈ blocks, ptr = blk + headerSize ∧ InPayload s.heap.memory blk position := by
  obtain ⟨hlive, hge, hlt⟩ := hpayload
  obtain ⟨size, hsize⟩ := Option.isSome_iff_exists.mp hlive
  obtain ⟨blk, hmem, rfl, -, -⟩ := hinv.live ptr size hsize
  obtain ⟨hnat, -, hback⟩ := hinv.shape.payload hmem
  rw [hnat] at hge hlt
  rw [hback] at hlt
  exact ⟨blk, hmem, rfl, hge, by rw [blockExtent]; omega⟩

/-- A live payload meets no header. -/
theorem HeapInvariant.not_inHeader (hinv : HeapInvariant s blocks)
    (hpayload : LivePayload s ptr position) {blk : Word} (hmem : blk ∈ blocks) :
    ¬ InHeader blk position := by
  obtain ⟨owner, howner, -, hin⟩ := hinv.livePayload hpayload
  exact fun hheader ↦ (hinv.shape.not_inHeader hmem howner hheader).1 hin

/-- Live payloads are below `heap_ptr`. -/
theorem HeapInvariant.below (hinv : HeapInvariant s blocks)
    (hpayload : LivePayload s ptr position) : position < s.heap.heapPtr.toNat := by
  obtain ⟨owner, howner, -, -, hlt⟩ := hinv.livePayload hpayload
  have hbounds := hinv.shape.block_bounds howner
  omega

/-- Live payloads of different pointers do not meet. -/
theorem HeapInvariant.disjoint (hinv : HeapInvariant s blocks) {other : Word}
    (hpayload : LivePayload s ptr position) (hother : LivePayload s other position) :
    ptr = other := by
  obtain ⟨first, hfirst, rfl, hinFirst⟩ := hinv.livePayload hpayload
  obtain ⟨second, hsecond, rfl, hinSecond⟩ := hinv.livePayload hother
  by_contra hne
  have hblocks : first ≠ second := fun heq ↦ hne (by rw [heq])
  have hdisjoint := hinv.shape.tiles.disjoint hfirst hsecond hblocks
  rw [InPayload] at hinFirst hinSecond
  omega

/-- The pointer to a free block, or to a new one, is not live. -/
theorem HeapInvariant.not_live (hinv : HeapInvariant s blocks) {blk : Word}
    (hfree : blk ∈ blocks → blkFree s.heap.memory blk ≠ 0#32) :
    s.live (blk + headerSize) = none := by
  by_contra hlive
  obtain ⟨size, hsize⟩ := Option.ne_none_iff_exists'.mp hlive
  obtain ⟨owner, howner, heq, hused, -⟩ := hinv.live _ size hsize
  rw [BitVec.add_left_inj] at heq
  subst heq
  exact hfree howner hused

/-- The free blocks are those whose pointer is not live. -/
theorem HeapInvariant.free_iff (hinv : HeapInvariant s blocks) {blk : Word} (hmem : blk ∈ blocks) :
    blkFree s.heap.memory blk ≠ 0#32 ↔ s.live (blk + headerSize) = none :=
  ⟨fun hfree ↦ hinv.not_live fun _ ↦ hfree, hinv.free blk hmem⟩

/-- NULL is not live. -/
theorem HeapInvariant.null_not_live (hinv : HeapInvariant s blocks) : s.live 0#64 = none := by
  by_contra hlive
  obtain ⟨size, hsize⟩ := Option.ne_none_iff_exists'.mp hlive
  obtain ⟨blk, hmem, heq, -, -⟩ := hinv.live _ size hsize
  exact (hinv.shape.payload hmem).2.1 heq.symm

/-- The invariant after a step that gives a pointer to one block and keeps the others'. -/
theorem HeapInvariant.addLive (hinv : HeapInvariant s blocks) {heap : Heap} {after : List Word}
    {blk : Word} (hshape : HeapShape heap after) (hmem : blk ∈ after)
    (hused : blkFree heap.memory blk = 0#32) (hsize : size ≤ blkSize heap.memory blk)
    (hkept : ∀ other ∈ blocks, other ≠ blk → other ∈ after ∧
      blkSize heap.memory other = blkSize s.heap.memory other ∧
        blkFree heap.memory other = blkFree s.heap.memory other)
    (hafter : ∀ other ∈ after, other = blk ∨ other ∈ blocks) :
    HeapInvariant ⟨heap, Mm.addLive s.live (blk + headerSize) size⟩ after := by
  have hupdate : Mm.addLive s.live (blk + headerSize) size =
      Function.update s.live (blk + headerSize) (some size) :=
    if_neg (hshape.payload hmem).2.1
  rw [hupdate]
  refine ⟨hshape, fun ptr requested hlive ↦ ?_, fun other hother hnone ↦ ?_⟩
  · change Function.update s.live (blk + headerSize) (some size) ptr = some requested at hlive
    by_cases heq : ptr = blk + headerSize
    · subst heq
      rw [Function.update_self, Option.some.injEq] at hlive
      exact ⟨blk, hmem, rfl, hused, hlive ▸ hsize⟩
    · rw [Function.update_of_ne heq] at hlive
      obtain ⟨owner, howner, rfl, hfree, hlarge⟩ := hinv.live ptr requested hlive
      obtain ⟨hafter, hsizeKept, hfreeKept⟩ := hkept owner howner fun howned ↦ heq (by rw [howned])
      refine ⟨owner, hafter, rfl, hfreeKept.trans hfree, ?_⟩
      rw [hsizeKept]
      exact hlarge
  · change Function.update s.live (blk + headerSize) (some size) (other + headerSize) = none
      at hnone
    by_cases heq : other = blk
    · rw [heq, Function.update_self] at hnone
      cases hnone
    · rw [Function.update_of_ne fun hsame ↦ heq ((BitVec.add_left_inj _).mp hsame)] at hnone
      have hold := (hafter other hother).resolve_left heq
      rw [(hkept other hold heq).2.2]
      exact hinv.free other hold hnone

/-- The size reserved is at least the size requested. -/
theorem le_alignUp_16 (hsize : size.toNat ≤ 0x400000) : size ≤ alignUp size 16#64 := by
  rw [BitVec.le_def, toNat_alignUp_16 hsize]
  omega

/-- What a `kmalloc` does, seen from its caller. -/
structure Kmalloc (s : HeapState) (blocks : List Word) (size result : Word) (next : Heap) :
    Prop where
  invariant : ∃ after, HeapInvariant ⟨next, addLive s.live result size⟩ after
  null_iff : size ≠ 0#64 → (result = 0#64 ↔
    (∀ blk ∈ blocks, blkFree s.heap.memory blk = 0#32 ∨
      blkSize s.heap.memory blk < alignUp size 16#64) ∧
    0x800000 < s.heap.heapPtr.toNat + 24 + (alignUp size 16#64).toNat)
  null_unchanged : result = 0#64 → next = s.heap
  fresh : s.live result = none
  kept : ∀ ptr position, LivePayload s ptr position →
    next.memory position = s.heap.memory position

/-- A request that fits in the heap is answered. -/
theorem HeapInvariant.kmalloc (hinv : HeapInvariant s blocks) (hsize : size.toNat ≤ 0x400000) :
    ∃ result next, Mm.kmalloc s.heap size = some (result, next) ∧
      Kmalloc s blocks size result next := by
  by_cases hpositive : size = 0#64
  · refine ⟨0#64, s.heap, by rw [Mm.kmalloc, if_pos hpositive], ⟨blocks, ?_⟩,
      fun hne ↦ absurd hpositive hne, fun _ ↦ rfl, hinv.null_not_live, fun _ _ _ ↦ rfl⟩
    rw [Mm.addLive, if_pos rfl]
    exact hinv
  rcases kmalloc_cases hinv.shape hpositive hsize with
    ⟨blk, hmem, hfits, hresult⟩ | ⟨hnone, hroom, hresult⟩ | ⟨hnone, hroom, hresult⟩
  · -- a free block is reused
    simp only [fits, ne_eq, decide_eq_true_eq] at hfits
    have hroom := hinv.shape.room hmem
    obtain ⟨hshape, hfields⟩ := hinv.shape.setFree hmem 0#32
    refine ⟨_, _, hresult, ⟨blocks, ?_⟩, fun _ ↦ ?_, ?_, hinv.not_live fun _ ↦ hfits.1, ?_⟩
    · refine hinv.addLive hshape hmem (setFree_fields hroom 0#32).2.1 ?_ (fun other hother hne ↦
        ⟨hother, (hfields other hother).1, (hfields other hother).2 hne⟩) fun _ ↦ Or.inr
      rw [(setFree_fields hroom 0#32).1]
      exact BitVec.le_trans (le_alignUp_16 hsize) hfits.2
    · refine iff_of_false (hinv.shape.payload hmem).2.1 fun hnull ↦ ?_
      rcases hnull.1 blk hmem with hused | hsmall
      · exact hfits.1 hused
      · exact absurd hfits.2 (BitVec.not_le.mpr hsmall)
    · exact fun hnull ↦ absurd hnull (hinv.shape.payload hmem).2.1
    · exact fun ptr position hpayload ↦ setFree_apply hroom (hinv.not_inHeader hpayload hmem)
  · -- neither a free block nor room
    refine ⟨_, _, hresult, ⟨blocks, ?_⟩, fun _ ↦ iff_of_true rfl ⟨fun blk hmem ↦ ?_, hroom⟩,
      fun _ ↦ rfl, hinv.null_not_live, fun _ _ _ ↦ rfl⟩
    · rw [Mm.addLive, if_pos rfl]
      exact hinv
    · have hunfit := hnone blk hmem
      rw [fits, decide_eq_false_iff_not, not_and_or, not_not, BitVec.not_le] at hunfit
      exact hunfit
  · -- a block is carved at `heap_ptr`
    obtain ⟨hshape, hfields⟩ := hinv.shape.carve hroom
    have hbound := hinv.shape.bound
    have hkheap := toNat_kheap
    have hfits : s.heap.heapPtr.toNat + 24 ≤ 2 ^ 64 := by omega
    have hnew : s.heap.heapPtr ∉ blocks := by
      intro hmem
      have hbounds := hinv.shape.block_bounds hmem
      omega
    have hheader := writeHeader_fields s.heap.memory hfits (alignUp size 16#64)
      s.heap.heapHead
    refine ⟨_, _, hresult, ⟨s.heap.heapPtr :: blocks, ?_⟩, fun _ ↦ ?_, ?_,
      hinv.not_live fun hmem ↦ absurd hmem hnew, fun ptr position hpayload ↦ ?_⟩
    · refine hinv.addLive hshape List.mem_cons_self hheader.2.1 ?_ (fun other hother _ ↦
        ⟨List.mem_cons_of_mem _ hother, hfields other hother⟩) fun _ ↦ List.mem_cons.mp
      rw [hheader.1]
      exact le_alignUp_16 hsize
    · refine iff_of_false (hshape.payload List.mem_cons_self).2.1 fun hnull ↦ ?_
      exact absurd hnull.2 (by omega)
    · exact fun hnull ↦ absurd hnull (hshape.payload List.mem_cons_self).2.1
    · refine writeHeader_apply hfits fun hheader ↦ ?_
      have hbelow := hinv.below hpayload
      exact absurd hheader.1 (by omega)

/-- Freeing a live pointer or NULL keeps the invariant and every live payload. -/
theorem HeapInvariant.kfree (hinv : HeapInvariant s blocks)
    (hlive : ptr = 0#64 ∨ (s.live ptr).isSome) :
    HeapInvariant ⟨Mm.kfree s.heap ptr, Function.update s.live ptr none⟩ blocks ∧
      ∀ other position, LivePayload s other position →
        (Mm.kfree s.heap ptr).memory position = s.heap.memory position := by
  by_cases hnull : ptr = 0#64
  · rw [Mm.kfree, if_pos hnull, hnull, Function.update_eq_self_iff.mpr hinv.null_not_live.symm]
    exact ⟨hinv, fun _ _ _ ↦ rfl⟩
  · obtain ⟨size, hsize⟩ := Option.isSome_iff_exists.mp (hlive.resolve_left hnull)
    obtain ⟨blk, hmem, rfl, -, -⟩ := hinv.live ptr size hsize
    obtain ⟨hshape, hfields⟩ := hinv.shape.setFree hmem 1#32
    rw [Mm.kfree, if_neg hnull, (hinv.shape.payload hmem).2.2]
    refine ⟨⟨hshape, fun other requested hother ↦ ?_, fun other hother hnone ↦ ?_⟩,
      fun other position hpayload ↦
        setFree_apply (hinv.shape.room hmem) (hinv.not_inHeader hpayload hmem)⟩
    · change Function.update s.live (blk + headerSize) none other = some requested at hother
      by_cases heq : other = blk + headerSize
      · rw [heq, Function.update_self] at hother
        cases hother
      · rw [Function.update_of_ne heq] at hother
        obtain ⟨owner, howner, rfl, hused, hlarge⟩ := hinv.live other requested hother
        have hne : owner ≠ blk := fun howned ↦ heq (by rw [howned])
        obtain ⟨hsizeKept, hfreeKept⟩ := hfields owner howner
        refine ⟨owner, howner, rfl, (hfreeKept hne).trans hused, ?_⟩
        rw [hsizeKept]
        exact hlarge
    · change Function.update s.live (blk + headerSize) none (other + headerSize) = none at hnone
      by_cases heq : other = blk
      · rw [heq]
        exact ne_of_eq_of_ne (setFree_fields (hinv.shape.room hmem) 1#32).2.1 (by decide)
      · rw [Function.update_of_ne fun hsame ↦ heq ((BitVec.add_left_inj _).mp hsame)] at hnone
        exact ne_of_eq_of_ne ((hfields other hother).2 heq) (hinv.free other hother hnone)

/-- Writes in live payloads and outside the heap keep the invariant. -/
theorem HeapInvariant.write (hinv : HeapInvariant s blocks) {memory : Memory}
    (hwrites : ∀ position, memory position ≠ s.heap.memory position →
      (∃ ptr, LivePayload s ptr position) ∨ position < 0x400000 ∨ 0x800000 ≤ position) :
    HeapInvariant ⟨{ s.heap with memory := memory }, s.live⟩ blocks := by
  have hheaders : ∀ blk ∈ blocks, blkSize memory blk = blkSize s.heap.memory blk ∧
      blkFree memory blk = blkFree s.heap.memory blk ∧
        blkNext memory blk = blkNext s.heap.memory blk := by
    intro blk hmem
    refine header_congr (hinv.shape.room hmem) fun position hposition ↦ ?_
    by_contra hchanged
    rcases hwrites position hchanged with ⟨ptr, hpayload⟩ | houtside
    · exact hinv.not_inHeader hpayload hmem hposition
    · have hbounds := hinv.shape.block_bounds hmem
      rw [InHeader] at hposition
      omega
  refine ⟨hinv.shape.congr fun blk hmem ↦ ⟨(hheaders blk hmem).1, (hheaders blk hmem).2.2⟩,
    fun ptr size hlive ↦ ?_, fun blk hmem hnone ↦
      ne_of_eq_of_ne (hheaders blk hmem).2.1 (hinv.free blk hmem hnone)⟩
  obtain ⟨blk, hmem, hptr, hused, hlarge⟩ := hinv.live ptr size hlive
  obtain ⟨hsizeKept, hfreeKept, -⟩ := hheaders blk hmem
  refine ⟨blk, hmem, hptr, hfreeKept.trans hused, ?_⟩
  rw [hsizeKept]
  exact hlarge

/-- The step lemma. -/
theorem HeapInvariant.step (hinv : HeapInvariant s blocks) {event : HeapEvent}
    (hstep : heapSystem.step s event next) : ∃ after, HeapInvariant next after := by
  obtain ⟨heap, live⟩ := next
  cases event with
  | kmalloc size result =>
    obtain ⟨hsize, hresult, rfl⟩ := hstep
    rw [BitVec.le_def, toNat_kheap.2] at hsize
    obtain ⟨result', heap', hresult', hdone⟩ := hinv.kmalloc hsize
    rw [hresult', Option.some.injEq, Prod.mk.injEq] at hresult
    obtain ⟨rfl, rfl⟩ := hresult
    exact hdone.invariant
  | kfree ptr =>
    obtain ⟨hlive, rfl, rfl⟩ := hstep
    exact ⟨blocks, (hinv.kfree hlive).1⟩
  | write =>
    obtain ⟨memory, heapPtr, heapHead⟩ := heap
    obtain ⟨rfl, rfl, rfl, hwrites⟩ := hstep
    exact ⟨blocks, hinv.write hwrites⟩

/-- The empty heap. -/
theorem HeapInvariant.start (hstart : heapSystem.start s) : HeapInvariant s [] := by
  obtain ⟨hptr, hhead, hlive⟩ := hstart
  refine ⟨⟨?_, ?_, ?_⟩, fun ptr size hsome ↦ ?_, fun blk hmem ↦ absurd hmem List.not_mem_nil⟩
  · rw [hhead]
    rfl
  · rw [hptr]
    rfl
  · rw [hptr]
    exact Nat.le_add_right _ _
  · rw [hlive] at hsome
    cases hsome

/-- The run lemma. -/
theorem HeapInvariant.of_run {events : List HeapEvent} (hrun : heapSystem.Run events s) :
    ∃ blocks, HeapInvariant s blocks := by
  refine hrun.invariant (motive := fun s ↦ ∃ blocks, HeapInvariant s blocks) ?_ ?_
  · exact fun s hstart ↦ ⟨[], HeapInvariant.start hstart⟩
  · rintro s event next ⟨blocks, hinv⟩ hstep
    exact hinv.step hstep

/-- The blocks that `kmalloc` returned lie at the heap's addresses. -/
theorem livePayload_inHeap {events : List HeapEvent} (hrun : heapSystem.Run events s)
    (hpayload : LivePayload s ptr position) : 0x400000 ≤ position ∧ position < 0x800000 := by
  obtain ⟨blocks, hinv⟩ := HeapInvariant.of_run hrun
  obtain ⟨blk, hmem, -, hge, hlt⟩ := hinv.livePayload hpayload
  have hbounds := hinv.shape.block_bounds hmem
  omega

end Invariant

/-! ### What callers see -/

/-- What holds of the heap in a reachable state. -/
structure HeapCorrect (s : HeapState) : Prop where
  /-- The list from `heap_head` ends, and visits no block twice. -/
  chain : Chain (nextBlock s.heap.memory) (toPointer s.heap.heapHead) (heapBlocks s.heap)
  acyclic : (heapBlocks s.heap).Nodup
  /-- The blocks tile the heap up to `heap_ptr`. -/
  tiles : Tiles BitVec.toNat (blockExtent s.heap.memory) kheapStart.toNat s.heap.heapPtr.toNat
    (heapBlocks s.heap)
  bound : s.heap.heapPtr.toNat ≤ kheapStart.toNat + kheapSize.toNat
  /-- A live pointer has a block at least as large as requested. -/
  requested : ∀ ptr size, s.live ptr = some size →
    ptr - headerSize ∈ heapBlocks s.heap ∧ size ≤ blkSize s.heap.memory (ptr - headerSize)
  /-- The blocks marked free are those whose pointer was given back. -/
  free_iff : ∀ blk ∈ heapBlocks s.heap,
    blkFree s.heap.memory blk ≠ 0#32 ↔ s.live (blk + headerSize) = none
  header_disjoint : ∀ ptr position, LivePayload s ptr position →
    ∀ blk ∈ heapBlocks s.heap, ¬ InHeader blk position
  payload_disjoint : ∀ ptr other position, LivePayload s ptr position →
    LivePayload s other position → ptr = other
  /-- A request is answered; with NULL exactly when no free block is large enough and the block
  does not fit above `heap_ptr`, and then nothing changes. -/
  kmalloc : ∀ size, size ≤ kheapSize → ∃ result next, kmalloc s.heap size = some (result, next) ∧
    (size ≠ 0#64 → (result = 0#64 ↔
      (∀ blk ∈ heapBlocks s.heap, blkFree s.heap.memory blk = 0#32 ∨
        blkSize s.heap.memory blk < alignUp size 16#64) ∧
      kheapStart.toNat + kheapSize.toNat <
        s.heap.heapPtr.toNat + headerSize.toNat + (alignUp size 16#64).toNat)) ∧
    (result = 0#64 → next = s.heap) ∧ s.live result = none ∧
    ∀ ptr position, LivePayload s ptr position → next.memory position = s.heap.memory position
  kfree : ∀ ptr, ptr = 0#64 ∨ (s.live ptr).isSome → ∀ other position,
    LivePayload s other position → (kfree s.heap ptr).memory position = s.heap.memory position

theorem HeapInvariant.correct {s : HeapState} {blocks : List Word}
    (hinv : HeapInvariant s blocks) : HeapCorrect s := by
  obtain rfl := hinv.shape.eq_heapBlocks
  refine ⟨hinv.shape.chain, hinv.shape.chain.nodup, hinv.shape.tiles, hinv.shape.bound,
    fun ptr size hlive ↦ ?_, fun blk ↦ hinv.free_iff,
    fun ptr position hpayload blk ↦ hinv.not_inHeader hpayload,
    fun ptr other position ↦ hinv.disjoint, fun size hsize ↦ ?_, fun ptr hlive ↦
      (hinv.kfree hlive).2⟩
  · obtain ⟨blk, hmem, rfl, -, hlarge⟩ := hinv.live ptr size hlive
    rw [(hinv.shape.payload hmem).2.2]
    exact ⟨hmem, hlarge⟩
  · rw [BitVec.le_def, toNat_kheap.2] at hsize
    obtain ⟨result, next, hresult, hdone⟩ := hinv.kmalloc hsize
    exact ⟨result, next, hresult, hdone.null_iff, hdone.null_unchanged, hdone.fresh, hdone.kept⟩

/-- The heap is correct along every run. -/
theorem heap_run_correct {events : List HeapEvent} {s : HeapState}
    (hrun : heapSystem.Run events s) : HeapCorrect s := by
  obtain ⟨blocks, hinv⟩ := HeapInvariant.of_run hrun
  exact hinv.correct

/-- The heap after its first `kmalloc`, of 100 bytes. -/
def firstBlock : Heap :=
  ⟨writeHeader (fun _ ↦ 0#8) kheapStart 112#64 0#64, 0x400088#64, kheapStart⟩

/-- A block of 100 bytes is given back, and 50 bytes come to lie in it. -/
theorem heap_run_correct_reuse : ∃ s : HeapState,
    heapSystem.Run [.kmalloc 100#64 0x400018#64, .kfree 0x400018#64, .kmalloc 50#64 0x400018#64] s ∧
      s.live 0x400018#64 = some 50#64 ∧ s.heap.heapPtr = 0x400088#64 ∧ HeapCorrect s := by
  have hstart : heapSystem.Run [] ⟨⟨fun _ ↦ 0#8, kheapStart, 0#64⟩, fun _ ↦ none⟩ :=
    TransitionSystem.Run.start ⟨rfl, rfl, rfl⟩
  have hfirst : heapSystem.step ⟨⟨fun _ ↦ 0#8, kheapStart, 0#64⟩, fun _ ↦ none⟩
      (.kmalloc 100#64 0x400018#64)
      ⟨firstBlock, addLive (fun _ ↦ none) 0x400018#64 100#64⟩ :=
    ⟨by decide, rfl, rfl⟩
  have hfree : heapSystem.step ⟨firstBlock, addLive (fun _ ↦ none) 0x400018#64 100#64⟩
      (.kfree 0x400018#64) ⟨kfree firstBlock 0x400018#64,
        Function.update (addLive (fun _ ↦ none) 0x400018#64 100#64) 0x400018#64 none⟩ :=
    ⟨Or.inr rfl, rfl, rfl⟩
  have hreuse : heapSystem.step ⟨kfree firstBlock 0x400018#64,
        Function.update (addLive (fun _ ↦ none) 0x400018#64 100#64) 0x400018#64 none⟩
      (.kmalloc 50#64 0x400018#64) ⟨{ kfree firstBlock 0x400018#64 with
          memory := setFree (kfree firstBlock 0x400018#64).memory kheapStart 0#32 },
        addLive (Function.update (addLive (fun _ ↦ none) 0x400018#64 100#64) 0x400018#64 none)
          0x400018#64 50#64⟩ :=
    ⟨by decide, rfl, rfl⟩
  have hrun := ((hstart.step hfirst).step hfree).step hreuse
  exact ⟨_, hrun, rfl, rfl, heap_run_correct hrun⟩

end Colix.Mm
