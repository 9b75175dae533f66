import Colix.Mm.Heap

/-!
# The shape of the heap

`HeapShape` says that the list of blocks tiles the heap up to `heap_ptr`. It depends on the headers
only, and writing a free flag or carving a block keeps it. `kmalloc_cases` says all that `kmalloc`
can do in a heap of this shape.
-/

set_option autoImplicit false
set_option relaxedAutoImplicit false

namespace Colix.Mm

open Foundation

/-! ### Headers -/

/-- The bytes of a block's header. -/
def InHeader (blk : Word) (position : ℕ) : Prop :=
  blk.toNat ≤ position ∧ position < blk.toNat + 24

/-- The bytes of a block's payload. -/
def InPayload (memory : Memory) (blk : Word) (position : ℕ) : Prop :=
  blk.toNat + 24 ≤ position ∧ position < blk.toNat + blockExtent memory blk

variable {memory next : Memory} {blk other : Word}

/-- The address of a field of a header that does not wrap. -/
theorem toNat_headerField (hroom : blk.toNat + 24 ≤ 2 ^ 64) (offset : Word)
    (hoffset : offset.toNat < 24) : (blk + offset).toNat = blk.toNat + offset.toNat := by
  rw [BitVec.toNat_add, Nat.mod_eq_of_lt (by omega)]

/-- The fields of a header depend on its bytes. -/
theorem header_congr (hroom : blk.toNat + 24 ≤ 2 ^ 64)
    (hagree : ∀ position, InHeader blk position → next position = memory position) :
    blkSize next blk = blkSize memory blk ∧ blkFree next blk = blkFree memory blk ∧
      blkNext next blk = blkNext memory blk := by
  have hfree : (blk + 8#64).toNat = blk.toNat + 8 := toNat_headerField hroom 8#64 (by decide)
  have hnext : (blk + 16#64).toNat = blk.toNat + 16 := toNat_headerField hroom 16#64 (by decide)
  refine ⟨load_congr fun position hge hlt ↦ hagree position ⟨by omega, by omega⟩, ?_, ?_⟩
  · rw [blkFree, blkFree, hfree]
    exact load_congr fun position hge hlt ↦ hagree position ⟨by omega, by omega⟩
  · rw [blkNext, blkNext, hnext]
    exact load_congr fun position hge hlt ↦ hagree position ⟨by omega, by omega⟩

/-- Setting the free flag writes nothing outside the header. -/
theorem setFree_apply (hroom : blk.toNat + 24 ≤ 2 ^ 64) {value : Word32} {position : ℕ}
    (houtside : ¬ InHeader blk position) : setFree memory blk value position = memory position := by
  rw [InHeader] at houtside
  rw [setFree, toNat_headerField hroom 8#64 (by decide)]
  exact store_apply_of_disjoint value (by simp; omega)

/-- Setting the free flag sets it, and leaves the other fields of the header. -/
theorem setFree_fields (hroom : blk.toNat + 24 ≤ 2 ^ 64) (value : Word32) :
    blkSize (setFree memory blk value) blk = blkSize memory blk ∧
      blkFree (setFree memory blk value) blk = value ∧
        blkNext (setFree memory blk value) blk = blkNext memory blk := by
  have hfree : (blk + 8#64).toNat = blk.toNat + 8 := toNat_headerField hroom 8#64 (by decide)
  have hnext : (blk + 16#64).toNat = blk.toNat + 16 := toNat_headerField hroom 16#64 (by decide)
  refine ⟨?_, load_store (by decide) value, ?_⟩
  · rw [blkSize, blkSize, setFree, hfree]
    exact load_store_of_disjoint value (by omega)
  · rw [blkNext, blkNext, setFree, hfree, hnext]
    exact load_store_of_disjoint value (by omega)

/-- A new header reads as it was written. -/
theorem writeHeader_fields (memory : Memory) (hroom : blk.toNat + 24 ≤ 2 ^ 64) (size head : Word) :
    blkSize (writeHeader memory blk size head) blk = size ∧
      blkFree (writeHeader memory blk size head) blk = 0#32 ∧
        blkNext (writeHeader memory blk size head) blk = head := by
  have hfree : (blk + 8#64).toNat = blk.toNat + 8 := toNat_headerField hroom 8#64 (by decide)
  have hnext : (blk + 16#64).toNat = blk.toNat + 16 := toNat_headerField hroom 16#64 (by decide)
  refine ⟨?_, ?_, load_store (by decide) head⟩
  · rw [blkSize, writeHeader, hnext, load_store_of_disjoint head (by omega), setFree, hfree,
      load_store_of_disjoint (0#32) (by omega)]
    exact load_store (by decide) size
  · rw [blkFree, writeHeader, hnext, hfree, load_store_of_disjoint head (by omega), setFree, hfree]
    exact load_store (by decide) (0#32)

/-- Writing a header writes nothing outside it. -/
theorem writeHeader_apply (hroom : blk.toNat + 24 ≤ 2 ^ 64) {size head : Word} {position : ℕ}
    (houtside : ¬ InHeader blk position) :
    writeHeader memory blk size head position = memory position := by
  have hinside := houtside
  rw [InHeader] at hinside
  rw [writeHeader, toNat_headerField hroom 16#64 (by decide),
    store_apply_of_disjoint head (by simp; omega), setFree_apply hroom houtside]
  exact store_apply_of_disjoint size (by omega)

/-! ### The shape of the heap -/

/-- The list from `heap_head` tiles the heap from its start to `heap_ptr`. -/
structure HeapShape (s : Heap) (blocks : List Word) : Prop where
  chain : Chain (nextBlock s.memory) (toPointer s.heapHead) blocks
  tiles : Tiles BitVec.toNat (blockExtent s.memory) kheapStart.toNat s.heapPtr.toNat blocks
  bound : s.heapPtr.toNat ≤ kheapStart.toNat + kheapSize.toNat

section Shape

variable {s : Heap} {blocks : List Word}

theorem toNat_kheap : kheapStart.toNat = 0x400000 ∧ kheapSize.toNat = 0x400000 := ⟨rfl, rfl⟩

/-- A block lies in the heap, so the addresses of its fields do not wrap. -/
theorem HeapShape.block_bounds (hshape : HeapShape s blocks) (hmem : blk ∈ blocks) :
    0x400000 ≤ blk.toNat ∧ blk.toNat + blockExtent s.memory blk ≤ s.heapPtr.toNat ∧
      blk.toNat + 24 ≤ s.heapPtr.toNat ∧ s.heapPtr.toNat ≤ 0x800000 := by
  have hbounds := hshape.tiles.bounds hmem
  have hbound := hshape.bound
  have hkheap := toNat_kheap
  have hextent : 24 ≤ blockExtent s.memory blk := Nat.le_add_right _ _
  omega

theorem HeapShape.room (hshape : HeapShape s blocks) (hmem : blk ∈ blocks) :
    blk.toNat + 24 ≤ 2 ^ 64 := by
  have hbounds := hshape.block_bounds hmem
  omega

/-- There are fewer blocks than bytes of heap. -/
theorem HeapShape.length_lt (hshape : HeapShape s blocks) : blocks.length < kheapSize.toNat := by
  have hlength := hshape.tiles.length_mul_le 24 fun _ ↦ Nat.le_add_right _ _
  have hbound := hshape.bound
  have hkheap := toNat_kheap
  omega

/-- The blocks are those on the list. -/
theorem HeapShape.eq_heapBlocks (hshape : HeapShape s blocks) : heapBlocks s = blocks :=
  hshape.chain.walk_eq hshape.length_lt.le

/-- The shape depends on the sizes and the links in the headers. -/
theorem HeapShape.congr (hshape : HeapShape s blocks) (hsize : ∀ blk ∈ blocks,
    blkSize next blk = blkSize s.memory blk ∧ blkNext next blk = blkNext s.memory blk) :
    HeapShape { s with memory := next } blocks := by
  refine ⟨hshape.chain.congr fun blk hmem ↦ ?_, hshape.tiles.congr fun blk hmem ↦ ?_, hshape.bound⟩
  · rw [nextBlock, nextBlock, (hsize blk hmem).2]
  · rw [blockExtent, blockExtent, (hsize blk hmem).1]

/-- The header of a block meets no other block. -/
theorem HeapShape.not_inHeader (hshape : HeapShape s blocks) (hmem : blk ∈ blocks)
    (hother : other ∈ blocks) {position : ℕ} (hposition : InHeader blk position) :
    ¬ InPayload s.memory other position ∧ (blk ≠ other → ¬ InHeader other position) := by
  have hextent : 24 ≤ blockExtent s.memory blk := Nat.le_add_right _ _
  have hextentOther : 24 ≤ blockExtent s.memory other := Nat.le_add_right _ _
  rw [InHeader] at hposition
  by_cases heq : blk = other
  · subst heq
    exact ⟨fun hpayload ↦ by rw [InPayload] at hpayload; omega, fun hne ↦ absurd rfl hne⟩
  · have hdisjoint := hshape.tiles.disjoint hmem hother heq
    refine ⟨fun hpayload ↦ ?_, fun _ hheader ↦ ?_⟩
    · rw [InPayload] at hpayload
      omega
    · rw [InHeader] at hheader
      omega

/-- Setting the free flag of a block keeps the shape and the other flags. -/
theorem HeapShape.setFree (hshape : HeapShape s blocks) (hmem : blk ∈ blocks) (value : Word32) :
    HeapShape { s with memory := setFree s.memory blk value } blocks ∧
      ∀ other ∈ blocks, blkSize (Mm.setFree s.memory blk value) other = blkSize s.memory other ∧
        (other ≠ blk → blkFree (Mm.setFree s.memory blk value) other = blkFree s.memory other) := by
  have hroom := hshape.room hmem
  have hfields : ∀ other ∈ blocks,
      blkSize (Mm.setFree s.memory blk value) other = blkSize s.memory other ∧
        blkNext (Mm.setFree s.memory blk value) other = blkNext s.memory other ∧
        (other ≠ blk → blkFree (Mm.setFree s.memory blk value) other = blkFree s.memory other) := by
    intro other hother
    by_cases heq : other = blk
    · subst heq
      obtain ⟨hsize, -, hnext⟩ := setFree_fields hroom value
      exact ⟨hsize, hnext, fun hne ↦ absurd rfl hne⟩
    · obtain ⟨hsize, hfree, hnext⟩ := header_congr (hshape.room hother) fun position hposition ↦
          setFree_apply hroom ((hshape.not_inHeader hother hmem hposition).2 heq)
      exact ⟨hsize, hnext, fun _ ↦ hfree⟩
  exact ⟨hshape.congr fun other hother ↦ ⟨(hfields other hother).1, (hfields other hother).2.1⟩,
    fun other hother ↦ ⟨(hfields other hother).1, (hfields other hother).2.2⟩⟩

/-- Carving a block above `heap_ptr` extends the shape and keeps the other headers. -/
theorem HeapShape.carve (hshape : HeapShape s blocks) {size : Word}
    (hroom : s.heapPtr.toNat + 24 + size.toNat ≤ 0x800000) :
    HeapShape
        { memory := writeHeader s.memory s.heapPtr size s.heapHead
          heapPtr := s.heapPtr + (headerSize + size)
          heapHead := s.heapPtr } (s.heapPtr :: blocks) ∧
      ∀ blk ∈ blocks,
        blkSize (writeHeader s.memory s.heapPtr size s.heapHead) blk = blkSize s.memory blk ∧
        blkFree (writeHeader s.memory s.heapPtr size s.heapHead) blk = blkFree s.memory blk := by
  have hkheap := toNat_kheap
  have hbottom := hshape.tiles.bottom_le
  have hfits : s.heapPtr.toNat + 24 ≤ 2 ^ 64 := by omega
  obtain ⟨hnewSize, -, hnewNext⟩ := writeHeader_fields s.memory hfits size s.heapHead
  have hkept : ∀ blk ∈ blocks,
      blkSize (writeHeader s.memory s.heapPtr size s.heapHead) blk = blkSize s.memory blk ∧
        blkFree (writeHeader s.memory s.heapPtr size s.heapHead) blk = blkFree s.memory blk ∧
        blkNext (writeHeader s.memory s.heapPtr size s.heapHead) blk = blkNext s.memory blk := by
    intro blk hmem
    have hbounds := hshape.block_bounds hmem
    refine header_congr (hshape.room hmem) fun position hposition ↦ writeHeader_apply hfits ?_
    rw [InHeader] at hposition ⊢
    omega
  have hbelow := hshape.congr fun blk hmem ↦ ⟨(hkept blk hmem).1, (hkept blk hmem).2.2⟩
  have htop : (s.heapPtr + (headerSize + size)).toNat = s.heapPtr.toNat + (24 + size.toNat) := by
    rw [BitVec.toNat_add, BitVec.toNat_add, show headerSize.toNat = 24 from rfl,
      Nat.mod_eq_of_lt (by omega : 24 + size.toNat < 2 ^ 64), Nat.mod_eq_of_lt (by omega)]
  have hne : s.heapPtr ≠ 0#64 := by
    intro hzero
    rw [hzero] at hbottom
    exact absurd hbottom (by decide)
  refine ⟨⟨⟨toPointer_of_ne hne, ?_⟩, ⟨?_, hbelow.tiles⟩, ?_⟩,
    fun blk hmem ↦ ⟨(hkept blk hmem).1, (hkept blk hmem).2.1⟩⟩
  · rw [nextBlock, hnewNext]
    exact hbelow.chain
  · rw [blockExtent, hnewSize, htop]
  · rw [htop]
    omega

end Shape

/-! ### What `kmalloc` can do -/

/-- The size `kmalloc` reserves for a request that fits in the heap. -/
theorem toNat_alignUp_16 {size : Word} (hsize : size.toNat ≤ 0x400000) :
    (alignUp size 16#64).toNat = (size.toNat + 15) / 16 * 16 := by
  have hround := toNat_alignUp (by decide : 4 < 64) size
  rw [show BitVec.ofNat 64 (2 ^ 4) = 16#64 from rfl] at hround
  rw [hround, Nat.mod_eq_of_lt (by omega)]
  rfl

section Search

variable {s : Heap} {blocks : List Word} {size : Word}

/-- With a free block that is large enough, `kmalloc` reuses one. -/
theorem kmalloc_of_fits (hshape : HeapShape s blocks) (hpositive : size ≠ 0#64)
    (hfits : ∃ blk ∈ blocks, fits s.memory (alignUp size 16#64) blk = true) :
    ∃ blk ∈ blocks, fits s.memory (alignUp size 16#64) blk = true ∧
      kmalloc s size = some (blk + headerSize, { s with memory := setFree s.memory blk 0#32 }) := by
  obtain ⟨blk, hfind⟩ := Option.isSome_iff_exists.mp (List.find?_isSome.mpr hfits)
  have hsearch := firstFit_eq (alignUp size 16#64) hshape.chain hshape.length_lt
  have hmem := List.mem_of_find?_eq_some hfind
  have hne : blk ≠ 0#64 := by
    rintro rfl
    have hbounds := hshape.block_bounds hmem
    exact absurd hbounds.1 (by decide)
  rw [hfind, Option.getD_some] at hsearch
  refine ⟨blk, hmem, List.find?_some hfind, ?_⟩
  simp only [kmalloc, if_neg hpositive, hsearch, if_pos hne]

/-- With no such block, `kmalloc` compares `heap_ptr + total` with the end of the heap. -/
theorem kmalloc_of_none (hshape : HeapShape s blocks) (hpositive : size ≠ 0#64)
    (hnone : ∀ blk ∈ blocks, fits s.memory (alignUp size 16#64) blk = false) :
    kmalloc s size =
      if kheapStart + kheapSize < s.heapPtr + (headerSize + alignUp size 16#64) then some (0#64, s)
      else some (s.heapPtr + headerSize,
        { memory := writeHeader s.memory s.heapPtr (alignUp size 16#64) s.heapHead
          heapPtr := s.heapPtr + (headerSize + alignUp size 16#64)
          heapHead := s.heapPtr }) := by
  have hsearch := firstFit_eq (alignUp size 16#64) hshape.chain hshape.length_lt
  rw [List.find?_eq_none.mpr (by simpa using hnone), Option.getD_none] at hsearch
  simp only [kmalloc, if_neg hpositive, hsearch, ne_eq, not_true_eq_false, if_false]

end Search

/-- All that `kmalloc` can do with a request that fits in the heap: reuse a free block, fail with
neither a free block nor room, or carve a block. -/
theorem kmalloc_cases {s : Heap} {blocks : List Word} (hshape : HeapShape s blocks) {size : Word}
    (hpositive : size ≠ 0#64) (hsize : size.toNat ≤ 0x400000) :
    (∃ blk ∈ blocks, fits s.memory (alignUp size 16#64) blk = true ∧
        kmalloc s size = some (blk + headerSize, { s with memory := setFree s.memory blk 0#32 })) ∨
      ((∀ blk ∈ blocks, fits s.memory (alignUp size 16#64) blk = false) ∧
        0x800000 < s.heapPtr.toNat + 24 + (alignUp size 16#64).toNat ∧
        kmalloc s size = some (0#64, s)) ∨
      ((∀ blk ∈ blocks, fits s.memory (alignUp size 16#64) blk = false) ∧
        s.heapPtr.toNat + 24 + (alignUp size 16#64).toNat ≤ 0x800000 ∧
        kmalloc s size = some (s.heapPtr + headerSize,
          { memory := writeHeader s.memory s.heapPtr (alignUp size 16#64) s.heapHead
            heapPtr := s.heapPtr + (headerSize + alignUp size 16#64)
            heapHead := s.heapPtr })) := by
  have hbound := hshape.bound
  have hkheap := toNat_kheap
  have haligned := toNat_alignUp_16 hsize
  by_cases hfits : ∃ blk ∈ blocks, fits s.memory (alignUp size 16#64) blk = true
  · exact .inl (kmalloc_of_fits hshape hpositive hfits)
  · have hnone : ∀ blk ∈ blocks, fits s.memory (alignUp size 16#64) blk = false := by
      simpa using hfits
    have hresult := kmalloc_of_none hshape hpositive hnone
    have hfull : kheapStart + kheapSize < s.heapPtr + (headerSize + alignUp size 16#64) ↔
        0x800000 < s.heapPtr.toNat + 24 + (alignUp size 16#64).toNat := by
      rw [BitVec.lt_def, show (kheapStart + kheapSize).toNat = 0x800000 from rfl, BitVec.toNat_add,
        BitVec.toNat_add, show headerSize.toNat = 24 from rfl,
        Nat.mod_eq_of_lt (by omega : 24 + (alignUp size 16#64).toNat < 2 ^ 64),
        Nat.mod_eq_of_lt (by omega), Nat.add_assoc]
    by_cases hroom : 0x800000 < s.heapPtr.toNat + 24 + (alignUp size 16#64).toNat
    · exact .inr (.inl ⟨hnone, hroom, by rw [hresult, if_pos (hfull.mpr hroom)]⟩)
    · exact .inr (.inr ⟨hnone, by omega, by rw [hresult, if_neg (hfull.not.mpr hroom)]⟩)

end Colix.Mm
