import Colix.Foundation.HighWater
import Colix.Mm.HeapRun

/-!
# Requests of one size

`kmalloc` never splits and never joins blocks, so a heap can be fragmented by requests of different
sizes. Requests that all reserve the same number of bytes waste nothing: a free block answers any of
them, so a new block is made only when all are in use. `uniform_run` says what follows in every run:
`heap_ptr` stands above as many blocks as were in use at the peak, and a request gets NULL exactly
when one block more than are in use does not fit in the heap.
-/

set_option autoImplicit false
set_option relaxedAutoImplicit false

namespace Colix.Mm

open Foundation

/-! ### The runs -/

/-- A `kmalloc` that returned a block. -/
def HeapEvent.takes : HeapEvent → Bool
  | .kmalloc _ result => result ≠ 0#64
  | _ => false

/-- A `kfree` of a block. -/
def HeapEvent.gives : HeapEvent → Bool
  | .kfree ptr => ptr ≠ 0#64
  | _ => false

/-- A request for no bytes, or one that reserves so many. -/
def HeapEvent.Reserves (reserved : ℕ) : HeapEvent → Prop
  | .kmalloc size _ => size ≠ 0#64 → (alignUp size 16#64).toNat = reserved
  | _ => True

/-- The runs whose requests all reserve the same number of bytes. -/
def uniformSystem (reserved : ℕ) : TransitionSystem HeapState HeapEvent :=
  heapSystem.restrict fun _ event ↦ event.Reserves reserved

/-- The blocks in use after a history of calls. -/
abbrev blocksInUse (events : List HeapEvent) : ℕ :=
  outstanding HeapEvent.takes HeapEvent.gives events

/-- The most blocks that were in use at any time. -/
abbrev peakBlocks (events : List HeapEvent) : ℕ :=
  peak HeapEvent.takes HeapEvent.gives events

/-! ### The invariant -/

/-- The block is in use. -/
def inUse (memory : Memory) (blk : Word) : Bool :=
  blkFree memory blk = 0#32

/-- All blocks are of the one size; those in use are the ones that the history took and did not
give back, and there are as many as were in use at the peak. -/
structure UniformInvariant (reserved : ℕ) (events : List HeapEvent) (s : HeapState)
    (blocks : List Word) : Prop where
  heap : HeapInvariant s blocks
  size_eq : ∀ blk ∈ blocks, (blkSize s.heap.memory blk).toNat = reserved
  count_eq : events.countP HeapEvent.takes =
    events.countP HeapEvent.gives + blocks.countP (inUse s.heap.memory)
  length_eq : blocks.length = peakBlocks events

section Invariant

variable {reserved : ℕ} {events : List HeapEvent} {s : HeapState} {next : Heap}
  {blocks : List Word} {size result ptr blk : Word}

/-- The blocks in use are those that are not free. -/
theorem UniformInvariant.blocksInUse_eq (hinv : UniformInvariant reserved events s blocks) :
    blocksInUse events = blocks.countP (inUse s.heap.memory) := by
  have hcount := hinv.count_eq
  rw [blocksInUse, outstanding]
  omega

/-- `heap_ptr` stands above the blocks. -/
theorem UniformInvariant.heapPtr_eq (hinv : UniformInvariant reserved events s blocks) :
    s.heap.heapPtr.toNat = 0x400000 + blocks.length * (24 + reserved) := by
  have htop : ∀ (top : ℕ) (members : List Word),
      Tiles BitVec.toNat (blockExtent s.heap.memory) 0x400000 top members →
        (∀ blk ∈ members, (blkSize s.heap.memory blk).toNat = reserved) →
          top = 0x400000 + members.length * (24 + reserved) := by
    intro top members htiles hsizes
    induction members generalizing top with
    | nil =>
      rw [List.length_nil, Nat.zero_mul]
      exact htiles
    | cons blk members ih =>
      obtain ⟨htop, hrest⟩ := htiles
      have hbelow := ih _ hrest fun other hother ↦ hsizes other (List.mem_cons_of_mem _ hother)
      have hsize := hsizes blk List.mem_cons_self
      rw [blockExtent, hsize] at htop
      rw [List.length_cons, Nat.succ_mul]
      omega
  exact htop _ _ hinv.heap.shape.tiles hinv.size_eq

/-- A step that takes and gives back nothing and leaves the headers alone. -/
theorem UniformInvariant.kept (hinv : UniformInvariant reserved events s blocks)
    {event : HeapEvent} {after : HeapState} (hheap : HeapInvariant after blocks)
    (hheaders : ∀ blk ∈ blocks, blkSize after.heap.memory blk = blkSize s.heap.memory blk ∧
      blkFree after.heap.memory blk = blkFree s.heap.memory blk)
    (htakes : event.takes = false) (hgives : event.gives = false) :
    UniformInvariant reserved (events ++ [event]) after blocks := by
  have htaken := countP_append_event events htakes
  have hgiven := countP_append_event events hgives
  refine ⟨hheap, fun blk hmem ↦ ?_, ?_, ?_⟩
  · rw [(hheaders blk hmem).1]
    exact hinv.size_eq blk hmem
  · have hused : blocks.countP (inUse after.heap.memory) = blocks.countP (inUse s.heap.memory) := by
      refine List.countP_congr fun blk hmem ↦ ?_
      rw [inUse, inUse, (hheaders blk hmem).2]
    rw [htaken, hgiven, hused]
    exact hinv.count_eq
  · have hle : blocksInUse (events ++ [event]) ≤ peakBlocks events := by
      rw [blocksInUse, outstanding, htaken, hgiven]
      exact outstanding_le_peak events
    rw [peakBlocks, peak_append_singleton, max_eq_left hle]
    exact hinv.length_eq

/-- A free block is reused. -/
theorem UniformInvariant.reuse (hinv : UniformInvariant reserved events s blocks)
    (hmem : blk ∈ blocks) (hfree : blkFree s.heap.memory blk ≠ 0#32)
    {live : Word → Option Word}
    (hheap : HeapInvariant ⟨{ s.heap with memory := setFree s.heap.memory blk 0#32 }, live⟩ blocks)
    {event : HeapEvent} (htakes : event.takes = true) (hgives : event.gives = false) :
    UniformInvariant reserved (events ++ [event])
      ⟨{ s.heap with memory := setFree s.heap.memory blk 0#32 }, live⟩ blocks := by
  have hroom := hinv.heap.shape.room hmem
  obtain ⟨hsizeSelf, hused, -⟩ := setFree_fields hroom 0#32
  obtain ⟨-, hfields⟩ := hinv.heap.shape.setFree hmem 0#32
  have hcount : blocks.countP (inUse (setFree s.heap.memory blk 0#32)) =
      blocks.countP (inUse s.heap.memory) + 1 := by
    refine countP_succ_of_change hinv.heap.shape.chain.nodup hmem (decide_eq_false hfree)
      (decide_eq_true hused) fun other hother hne ↦ ?_
    rw [inUse, inUse, (hfields other hother).2 hne]
  have htaken := countP_append_event events htakes
  have hgiven := countP_append_event events hgives
  have hbefore := hinv.count_eq
  rw [Bool.toNat_true] at htaken
  rw [Bool.toNat_false, Nat.add_zero] at hgiven
  have hle := List.countP_le_length (p := inUse (setFree s.heap.memory blk 0#32)) (l := blocks)
  refine ⟨hheap, fun other hother ↦ ?_, ?_, ?_⟩
  · change (blkSize (setFree s.heap.memory blk 0#32) other).toNat = reserved
    rw [(hfields other hother).1]
    exact hinv.size_eq other hother
  · change _ = _ + blocks.countP (inUse (setFree s.heap.memory blk 0#32))
    omega
  · have hpeak : outstanding HeapEvent.takes HeapEvent.gives (events ++ [event]) ≤
        peakBlocks events := by
      rw [outstanding, ← hinv.length_eq]
      omega
    rw [peakBlocks, peak_append_singleton, max_eq_left hpeak]
    exact hinv.length_eq

/-- With no free block, a new one is made, and that is a new peak. -/
theorem UniformInvariant.carve (hinv : UniformInvariant reserved events s blocks)
    (hnone : ∀ blk ∈ blocks, blkFree s.heap.memory blk = 0#32)
    (hroom : s.heap.heapPtr.toNat + 24 + size.toNat ≤ 0x800000) (hsize : size.toNat = reserved)
    {live : Word → Option Word}
    (hheap : HeapInvariant
      ⟨{ memory := writeHeader s.heap.memory s.heap.heapPtr size s.heap.heapHead
         heapPtr := s.heap.heapPtr + (headerSize + size)
         heapHead := s.heap.heapPtr }, live⟩ (s.heap.heapPtr :: blocks))
    {event : HeapEvent} (htakes : event.takes = true) (hgives : event.gives = false) :
    UniformInvariant reserved (events ++ [event])
      ⟨{ memory := writeHeader s.heap.memory s.heap.heapPtr size s.heap.heapHead
         heapPtr := s.heap.heapPtr + (headerSize + size)
         heapHead := s.heap.heapPtr }, live⟩ (s.heap.heapPtr :: blocks) := by
  obtain ⟨-, hfields⟩ := hinv.heap.shape.carve hroom
  have hfits : s.heap.heapPtr.toNat + 24 ≤ 2 ^ 64 := by omega
  obtain ⟨hnewSize, hnewUsed, -⟩ :=
    writeHeader_fields s.heap.memory hfits size s.heap.heapHead
  have hall : blocks.countP (inUse s.heap.memory) = blocks.length :=
    List.countP_eq_length.mpr fun blk hmem ↦ decide_eq_true (hnone blk hmem)
  have hcount : (s.heap.heapPtr :: blocks).countP
      (inUse (writeHeader s.heap.memory s.heap.heapPtr size s.heap.heapHead)) =
        blocks.length + 1 := by
    rw [← List.length_cons (a := s.heap.heapPtr)]
    refine List.countP_eq_length.mpr fun blk hmem ↦ decide_eq_true ?_
    rcases List.mem_cons.mp hmem with rfl | hmem
    · exact hnewUsed
    · rw [(hfields blk hmem).2]
      exact hnone blk hmem
  have htaken := countP_append_event events htakes
  have hgiven := countP_append_event events hgives
  have hbefore := hinv.count_eq
  rw [Bool.toNat_true] at htaken
  rw [Bool.toNat_false, Nat.add_zero] at hgiven
  refine ⟨hheap, fun blk hmem ↦ ?_, ?_, ?_⟩
  · change (blkSize (writeHeader s.heap.memory s.heap.heapPtr size s.heap.heapHead) blk).toNat =
      reserved
    rcases List.mem_cons.mp hmem with rfl | hmem
    · rw [hnewSize, hsize]
    · rw [(hfields blk hmem).1]
      exact hinv.size_eq blk hmem
  · change _ = _ + (s.heap.heapPtr :: blocks).countP
      (inUse (writeHeader s.heap.memory s.heap.heapPtr size s.heap.heapHead))
    omega
  · have hpeak : outstanding HeapEvent.takes HeapEvent.gives (events ++ [event]) =
        peakBlocks events + 1 := by
      rw [outstanding, ← hinv.length_eq]
      omega
    rw [peakBlocks, peak_append_singleton, hpeak, max_eq_right (Nat.le_succ _), List.length_cons,
      hinv.length_eq]

/-- A block is given back. -/
theorem UniformInvariant.free (hinv : UniformInvariant reserved events s blocks)
    (hmem : blk ∈ blocks) (hused : blkFree s.heap.memory blk = 0#32) {live : Word → Option Word}
    (hheap : HeapInvariant ⟨{ s.heap with memory := setFree s.heap.memory blk 1#32 }, live⟩ blocks)
    {event : HeapEvent} (htakes : event.takes = false) (hgives : event.gives = true) :
    UniformInvariant reserved (events ++ [event])
      ⟨{ s.heap with memory := setFree s.heap.memory blk 1#32 }, live⟩ blocks := by
  have hroom := hinv.heap.shape.room hmem
  obtain ⟨-, hfree, -⟩ := setFree_fields hroom 1#32
  obtain ⟨-, hfields⟩ := hinv.heap.shape.setFree hmem 1#32
  have hnotUsed : inUse (setFree s.heap.memory blk 1#32) blk = false := by
    rw [inUse, hfree]
    rfl
  have hcount : blocks.countP (inUse s.heap.memory) =
      blocks.countP (inUse (setFree s.heap.memory blk 1#32)) + 1 := by
    refine countP_succ_of_change hinv.heap.shape.chain.nodup hmem hnotUsed (decide_eq_true hused)
      fun other hother hne ↦ ?_
    rw [inUse, inUse, (hfields other hother).2 hne]
  have htaken := countP_append_event events htakes
  have hgiven := countP_append_event events hgives
  have hbefore := hinv.count_eq
  rw [Bool.toNat_false, Nat.add_zero] at htaken
  rw [Bool.toNat_true] at hgiven
  refine ⟨hheap, fun other hother ↦ ?_, ?_, ?_⟩
  · change (blkSize (setFree s.heap.memory blk 1#32) other).toNat = reserved
    rw [(hfields other hother).1]
    exact hinv.size_eq other hother
  · change _ = _ + blocks.countP (inUse (setFree s.heap.memory blk 1#32))
    omega
  · have hpeak : outstanding HeapEvent.takes HeapEvent.gives (events ++ [event]) ≤
        peakBlocks events := by
      refine le_trans ?_ (outstanding_le_peak events)
      rw [outstanding, outstanding]
      omega
    rw [peakBlocks, peak_append_singleton, max_eq_left hpeak]
    exact hinv.length_eq

/-- Users stay out of the headers. -/
theorem HeapInvariant.headers_write (hinv : HeapInvariant s blocks) {memory : Memory}
    (hwrites : ∀ position, memory position ≠ s.heap.memory position →
      (∃ ptr, LivePayload s ptr position) ∨ position < 0x400000 ∨ 0x800000 ≤ position)
    (hmem : blk ∈ blocks) : blkSize memory blk = blkSize s.heap.memory blk ∧
      blkFree memory blk = blkFree s.heap.memory blk := by
  have hbounds := hinv.shape.block_bounds hmem
  have hsame : ∀ position, InHeader blk position → memory position = s.heap.memory position := by
    intro position hposition
    by_contra hchanged
    rcases hwrites position hchanged with ⟨ptr, hpayload⟩ | houtside
    · exact hinv.not_inHeader hpayload hmem hposition
    · rw [InHeader] at hposition
      omega
  obtain ⟨hsize, hfree, -⟩ := header_congr (hinv.shape.room hmem) hsame
  exact ⟨hsize, hfree⟩

/-- A request that reserves the one size. -/
theorem UniformInvariant.kmalloc (hinv : UniformInvariant reserved events s blocks)
    (hsize : size.toNat ≤ 0x400000)
    (hreserves : (HeapEvent.kmalloc size result).Reserves reserved)
    (hresult : Mm.kmalloc s.heap size = some (result, next)) :
    ∃ after, UniformInvariant reserved (events ++ [.kmalloc size result])
      ⟨next, addLive s.live result size⟩ after := by
  have hnull : ∀ heap : Heap, heap = s.heap → UniformInvariant reserved
      (events ++ [.kmalloc size 0#64]) ⟨heap, addLive s.live 0#64 size⟩ blocks := by
    rintro heap rfl
    exact hinv.kept (by rw [addLive, if_pos rfl]; exact hinv.heap) (fun _ _ ↦ ⟨rfl, rfl⟩) rfl rfl
  by_cases hpositive : size = 0#64
  · rw [Mm.kmalloc, if_pos hpositive, Option.some.injEq, Prod.mk.injEq] at hresult
    obtain ⟨rfl, rfl⟩ := hresult
    exact ⟨blocks, hnull _ rfl⟩
  obtain ⟨result', next', hresult', hdone⟩ := hinv.heap.kmalloc hsize
  rw [hresult', Option.some.injEq, Prod.mk.injEq] at hresult
  obtain ⟨rfl, rfl⟩ := hresult
  have hsame : (alignUp size 16#64).toNat = reserved := hreserves hpositive
  rcases kmalloc_cases hinv.heap.shape hpositive hsize with
    ⟨blk, hmem, hfits, hcase⟩ | ⟨-, -, hcase⟩ | ⟨hnone, hroom, hcase⟩
  · rw [hcase, Option.some.injEq, Prod.mk.injEq] at hresult'
    obtain ⟨rfl, rfl⟩ := hresult'
    simp only [fits, ne_eq, decide_eq_true_eq] at hfits
    obtain ⟨after, hafter⟩ := hdone.invariant
    have hblocks : after = blocks := by
      rw [← hafter.shape.eq_heapBlocks, ← (hinv.heap.shape.setFree hmem 0#32).1.eq_heapBlocks]
    subst hblocks
    exact ⟨after, hinv.reuse hmem hfits.1 hafter
      (decide_eq_true (hinv.heap.shape.payload hmem).2.1) rfl⟩
  · rw [hcase, Option.some.injEq, Prod.mk.injEq] at hresult'
    obtain ⟨rfl, rfl⟩ := hresult'
    exact ⟨blocks, hnull _ rfl⟩
  · rw [hcase, Option.some.injEq, Prod.mk.injEq] at hresult'
    obtain ⟨rfl, rfl⟩ := hresult'
    obtain ⟨hshape, -⟩ := hinv.heap.shape.carve hroom
    have hused : ∀ blk ∈ blocks, blkFree s.heap.memory blk = 0#32 := by
      intro blk hmem
      have hunfit := hnone blk hmem
      rw [fits, decide_eq_false_iff_not, not_and_or, not_not, BitVec.not_le] at hunfit
      refine hunfit.resolve_right fun hsmall ↦ ?_
      rw [BitVec.lt_def, hinv.size_eq blk hmem, hsame] at hsmall
      exact Nat.lt_irrefl _ hsmall
    obtain ⟨after, hafter⟩ := hdone.invariant
    have hblocks : after = s.heap.heapPtr :: blocks := by
      rw [← hafter.shape.eq_heapBlocks, ← hshape.eq_heapBlocks]
    subst hblocks
    exact ⟨_, hinv.carve hused hroom hsame hafter
      (decide_eq_true (hshape.payload List.mem_cons_self).2.1) rfl⟩

/-- The step lemma. -/
theorem UniformInvariant.step (hinv : UniformInvariant reserved events s blocks)
    {event : HeapEvent} {after : HeapState}
    (hstep : (uniformSystem reserved).step s event after) :
    ∃ rest, UniformInvariant reserved (events ++ [event]) after rest := by
  obtain ⟨hreserves, hstep⟩ := hstep
  obtain ⟨heap, live⟩ := after
  cases event with
  | kmalloc size result =>
    obtain ⟨hsize, hresult, rfl⟩ := hstep
    rw [BitVec.le_def, toNat_kheap.2] at hsize
    exact hinv.kmalloc hsize hreserves hresult
  | kfree ptr =>
    obtain ⟨hlive, rfl, rfl⟩ := hstep
    obtain ⟨hheap, -⟩ := hinv.heap.kfree hlive
    by_cases hnull : ptr = 0#64
    · refine ⟨blocks, hinv.kept hheap (fun blk _ ↦ ?_) rfl (decide_eq_false (not_not.mpr hnull))⟩
      change blkSize (Mm.kfree s.heap ptr).memory blk = _ ∧ _
      rw [Mm.kfree, if_pos hnull]
      exact ⟨rfl, rfl⟩
    · obtain ⟨size, hsize⟩ := Option.isSome_iff_exists.mp (hlive.resolve_left hnull)
      obtain ⟨blk, hmem, rfl, hused, -⟩ := hinv.heap.live ptr size hsize
      rw [Mm.kfree, if_neg hnull, (hinv.heap.shape.payload hmem).2.2] at hheap ⊢
      exact ⟨blocks, hinv.free hmem hused hheap rfl (decide_eq_true hnull)⟩
  | write =>
    obtain ⟨memory, heapPtr, heapHead⟩ := heap
    obtain ⟨rfl, rfl, rfl, hwrites⟩ := hstep
    exact ⟨blocks, hinv.kept (hinv.heap.write hwrites)
      (fun blk hmem ↦ hinv.heap.headers_write hwrites hmem) rfl rfl⟩

/-- The run lemma. -/
theorem UniformInvariant.of_run (hrun : (uniformSystem reserved).Run events s) :
    ∃ blocks, UniformInvariant reserved events s blocks := by
  refine hrun.history_invariant (motive := fun events s ↦
    ∃ blocks, UniformInvariant reserved events s blocks) (fun s hstart ↦ ?_) ?_
  · refine ⟨[], HeapInvariant.start hstart, fun blk hmem ↦ absurd hmem List.not_mem_nil, rfl, rfl⟩
  · rintro events s event next ⟨blocks, hinv⟩ hstep
    exact hinv.step hstep

/-- Whether a request finds a block. -/
theorem UniformInvariant.null_iff (hinv : UniformInvariant reserved events s blocks)
    (hsize : size.toNat ≤ 0x400000) (hpositive : size ≠ 0#64)
    (hreserves : (alignUp size 16#64).toNat = reserved) :
    ∃ result next, Mm.kmalloc s.heap size = some (result, next) ∧
      (result = 0#64 ↔ 0x400000 < (blocksInUse events + 1) * (24 + reserved)) := by
  obtain ⟨result, next, hresult, hdone⟩ := hinv.heap.kmalloc hsize
  refine ⟨result, next, hresult, ?_⟩
  have htop := hinv.heapPtr_eq
  have hbound := hinv.heap.shape.bound
  have hkheap := toNat_kheap
  rw [hdone.null_iff hpositive, hinv.blocksInUse_eq, hreserves, htop, Nat.succ_mul]
  constructor
  · rintro ⟨hnone, hroom⟩
    have hall : blocks.countP (inUse s.heap.memory) = blocks.length := by
      refine List.countP_eq_length.mpr fun blk hmem ↦ decide_eq_true ?_
      refine (hnone blk hmem).resolve_right fun hsmall ↦ ?_
      rw [BitVec.lt_def, hinv.size_eq blk hmem, hreserves] at hsmall
      exact Nat.lt_irrefl _ hsmall
    rw [hall]
    omega
  · intro hroom
    -- a free block would leave room for all that are in use and one more
    have hall : blocks.countP (inUse s.heap.memory) = blocks.length := by
      by_contra hne
      have hless := Nat.lt_of_le_of_ne List.countP_le_length hne
      have hmul := Nat.mul_le_mul_right (24 + reserved) (Nat.succ_le_of_lt hless)
      rw [Nat.succ_mul] at hmul
      omega
    rw [hall] at hroom
    refine ⟨fun blk hmem ↦ Or.inl ?_, by omega⟩
    exact of_decide_eq_true (List.countP_eq_length.mp hall blk hmem)

end Invariant

/-- In every run whose requests all reserve the same number of bytes, `heap_ptr` stands above as
many blocks as were in use at the peak, and a request returns, with NULL exactly when one block more
than are in use does not fit in the heap. -/
theorem uniform_run {reserved : ℕ} {events : List HeapEvent} {s : HeapState}
    (hrun : (uniformSystem reserved).Run events s) :
    s.heap.heapPtr.toNat = kheapStart.toNat + peakBlocks events * (24 + reserved) ∧
      ∀ size, size ≤ kheapSize → size ≠ 0#64 → (alignUp size 16#64).toNat = reserved →
        ∃ result next, kmalloc s.heap size = some (result, next) ∧
          (result = 0#64 ↔
            kheapSize.toNat < (blocksInUse events + 1) * (headerSize.toNat + reserved)) := by
  obtain ⟨blocks, hinv⟩ := UniformInvariant.of_run hrun
  refine ⟨?_, fun size hsize hpositive hreserves ↦ ?_⟩
  · rw [hinv.heapPtr_eq, hinv.length_eq]
    rfl
  · rw [BitVec.le_def, toNat_kheap.2] at hsize
    exact hinv.null_iff hsize hpositive hreserves

/-- After one stack there is room for 254 more. -/
theorem uniform_run_stack : ∃ (events : List HeapEvent) (s : HeapState),
    (uniformSystem 16384).Run events s ∧ s.live 0x400018#64 = some 16384#64 ∧
      s.heap.heapPtr.toNat = 0x400000 + 16408 ∧
      ∃ result next, kmalloc s.heap 16384#64 = some (result, next) ∧
        (result = 0#64 ↔ 0x400000 < 2 * 16408) := by
  have hstart : heapSystem.start ⟨⟨fun _ ↦ 0#8, kheapStart, 0#64⟩, fun _ ↦ none⟩ :=
    ⟨rfl, rfl, rfl⟩
  have hpositive : 16384#64 ≠ 0#64 := by decide
  rcases kmalloc_cases (HeapInvariant.start hstart).shape hpositive (by decide) with
    ⟨blk, hmem, -, -⟩ | ⟨-, hroom, -⟩ | ⟨-, -, hresult⟩
  · exact absurd hmem List.not_mem_nil
  · exact absurd hroom (by decide)
  · have hstep : (uniformSystem 16384).step ⟨⟨fun _ ↦ 0#8, kheapStart, 0#64⟩, fun _ ↦ none⟩
        (.kmalloc 16384#64 0x400018#64) ⟨_, addLive (fun _ ↦ none) 0x400018#64 16384#64⟩ :=
      ⟨fun _ ↦ rfl, by decide, hresult, rfl⟩
    have hfirst : (uniformSystem 16384).start ⟨⟨fun _ ↦ 0#8, kheapStart, 0#64⟩, fun _ ↦ none⟩ :=
      hstart
    have hrun := (TransitionSystem.Run.start hfirst).step hstep
    obtain ⟨htop, hrequest⟩ := uniform_run hrun
    exact ⟨_, _, hrun, rfl, htop, hrequest 16384#64 (by decide) hpositive rfl⟩

end Colix.Mm
