import Colix.Foundation.ByteMemory
import Colix.Foundation.LinkedQueue
import Colix.Foundation.Tiling
import Colix.Types

/-!
# The kernel heap

`kmalloc` and `kfree` of `kernel/mm/vmm.c`: blocks carved one above another, each a header and a
payload, on one list from the newest down; first fit without splitting. The headers are in memory,
where the code has them. The search follows the list with fuel: `none` would be a search that does
not end, and `kmalloc_cases` shows that there is none.
-/

set_option autoImplicit false
set_option relaxedAutoImplicit false

namespace Colix.Mm

open Foundation

/-! ### The source -/

/-- `KHEAP_START` and `KHEAP_SIZE`. -/
abbrev kheapStart : Word := 0x400000#64
abbrev kheapSize : Word := 0x400000#64

/-- `sizeof(heap_block_t)`. -/
abbrev headerSize : Word := 24#64

/-- Memory with the variables `heap_ptr` and `heap_head`. -/
structure Heap where
  memory : Memory
  heapPtr : Word
  heapHead : Word

/-- `blk->size`. -/
def blkSize (memory : Memory) (blk : Word) : Word :=
  load 64 memory blk.toNat

/-- `blk->free`, an `int`. -/
def blkFree (memory : Memory) (blk : Word) : Word32 :=
  load 32 memory (blk + 8#64).toNat

/-- `blk->next`. -/
def blkNext (memory : Memory) (blk : Word) : Word :=
  load 64 memory (blk + 16#64).toNat

/-- `blk->free = value`. -/
def setFree (memory : Memory) (blk : Word) (value : Word32) : Memory :=
  store memory (blk + 8#64).toNat value

/-- The fields of a new header, in the order the code writes them. -/
def writeHeader (memory : Memory) (blk size next : Word) : Memory :=
  let memory := store memory blk.toNat size
  let memory := setFree memory blk 0#32
  store memory (blk + 16#64).toNat next

/-- The search of `kmalloc`: the first free block of at least `size` bytes from `blk` on, or NULL.
`none` when the fuel runs out. -/
def firstFit (memory : Memory) (size : Word) : ℕ → Word → Option Word
  | 0, _ => none
  | fuel + 1, blk =>
    if blk = 0#64 then some 0#64
    else if blkFree memory blk ≠ 0#32 ∧ size ≤ blkSize memory blk then some blk
    else firstFit memory size fuel (blkNext memory blk)

/-- `kmalloc(size)`. -/
def kmalloc (s : Heap) (size : Word) : Option (Word × Heap) :=
  if size = 0#64 then some (0#64, s)
  else
    let size := alignUp size 16#64
    match firstFit s.memory size kheapSize.toNat s.heapHead with
    | none => none
    | some blk =>
      if blk ≠ 0#64 then
        some (blk + headerSize, { s with memory := setFree s.memory blk 0#32 })
      else
        let total := headerSize + size
        if kheapStart + kheapSize < s.heapPtr + total then some (0#64, s)
        else
          some (s.heapPtr + headerSize,
            { memory := writeHeader s.memory s.heapPtr size s.heapHead
              heapPtr := s.heapPtr + total
              heapHead := s.heapPtr })

/-- `kfree(ptr)`. -/
def kfree (s : Heap) (ptr : Word) : Heap :=
  if ptr = 0#64 then s
  else { s with memory := setFree s.memory (ptr - headerSize) 1#32 }

/-! ### The list of blocks -/

/-- A pointer, NULL as `none`. -/
def toPointer (address : Word) : Option Word :=
  if address = 0#64 then none else some address

/-- `blk->next` as a pointer. -/
def nextBlock (memory : Memory) (blk : Word) : Option Word :=
  toPointer (blkNext memory blk)

/-- The blocks on `heap_head`'s list, newest first. -/
def heapBlocks (s : Heap) : List Word :=
  walk (nextBlock s.memory) kheapSize.toNat (toPointer s.heapHead)

/-- The extent of a block: its header and its payload. -/
def blockExtent (memory : Memory) (blk : Word) : ℕ :=
  24 + (blkSize memory blk).toNat

/-- The block is free and large enough. -/
def fits (memory : Memory) (size blk : Word) : Bool :=
  blkFree memory blk ≠ 0#32 ∧ size ≤ blkSize memory blk

theorem toPointer_some {address blk : Word} (hpointer : toPointer address = some blk) :
    address = blk ∧ blk ≠ 0#64 := by
  rw [toPointer, Option.ite_none_left_eq_some, Option.some.injEq] at hpointer
  exact ⟨hpointer.2, hpointer.2 ▸ hpointer.1⟩

theorem toPointer_of_ne {address : Word} (hne : address ≠ 0#64) :
    toPointer address = some address :=
  if_neg hne

/-- The search finds the first fitting block of a chain, given fuel for all of it. -/
theorem firstFit_eq {memory : Memory} (size : Word) {head : Word} {blocks : List Word} {fuel : ℕ}
    (hchain : Chain (nextBlock memory) (toPointer head) blocks) (hfuel : blocks.length < fuel) :
    firstFit memory size fuel head = some ((blocks.find? (fits memory size)).getD 0#64) := by
  induction blocks generalizing head fuel with
  | nil =>
    obtain ⟨fuel, rfl⟩ : ∃ less, fuel = less + 1 := ⟨fuel - 1, by simp at hfuel; omega⟩
    have hnull : head = 0#64 := by
      by_contra hne
      rw [toPointer_of_ne hne] at hchain
      cases hchain
    rw [firstFit, if_pos hnull]
    rfl
  | cons blk rest ih =>
    obtain ⟨fuel, rfl⟩ : ∃ less, fuel = less + 1 := ⟨fuel - 1, by simp at hfuel; omega⟩
    obtain ⟨rfl, hne⟩ := toPointer_some hchain.1
    rw [firstFit, if_neg hne]
    by_cases hfits : blkFree memory head ≠ 0#32 ∧ size ≤ blkSize memory head
    · rw [if_pos hfits, List.find?_cons_of_pos (by simpa [fits] using hfits)]
      rfl
    · rw [if_neg hfits, List.find?_cons_of_neg (by simpa [fits] using hfits)]
      exact ih hchain.2 (by simpa using hfuel)

end Colix.Mm
