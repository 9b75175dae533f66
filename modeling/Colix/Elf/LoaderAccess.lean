import Colix.Elf.ElfLoader
import Colix.Foundation.Traced

/-!
# What the ELF loader reads and writes

`elf_load_from_initrd` again, with the bytes of the image that it reads and the bytes of the
segments that it writes. `value_elfLoadTraced` says that it computes what `elfLoadFromInitrd`
computes. A field is read as a whole: its bytes are noted before the read can fault, and so is the
byte of a store.
-/

set_option autoImplicit false
set_option relaxedAutoImplicit false

namespace Colix.Elf

open Foundation Mm Initrd

/-! ### The source, with its accesses -/

/-- A byte read through a pointer into the image, or written to a segment. -/
inductive LoadAccess
  | read (address : Word)
  | write (segment : Segment) (address : Word)

/-- The bytes of a field. -/
def fieldBytes (w : ℕ) (address : Word) : List LoadAccess :=
  (List.range (w / 8)).map fun k ↦ .read (address + BitVec.ofNat 64 k)

/-- A field of the image. -/
def readFieldTraced (w : ℕ) (pml4 : Word) (memory : Memory) (address : Word) :
    Traced LoadAccess (BitVec w) := do
  Traced.access (fieldBytes w address) ()
  Traced.ofOption (readField w pml4 memory address)

/-- A program header. -/
def readPhdrTraced (pml4 : Word) (memory : Memory) (ph : Word) :
    Traced LoadAccess (Option Segment) := do
  let pType ← readFieldTraced 32 pml4 memory ph
  if pType ≠ ptLoad then pure none
  else do
    let vaddr ← readFieldTraced 64 pml4 memory (ph + 16#64)
    let memsz ← readFieldTraced 64 pml4 memory (ph + 40#64)
    let filesz ← readFieldTraced 64 pml4 memory (ph + 32#64)
    let offset ← readFieldTraced 64 pml4 memory (ph + 8#64)
    pure (some ⟨vaddr, memsz, filesz, offset⟩)

/-- `dst[j] = src[j]`. -/
def copyByteTraced (pml4 src : Word) (segment : Segment) (j : ℕ) (memory : Memory) :
    Traced LoadAccess Memory := do
  Traced.access [.read (src + BitVec.ofNat 64 j)] ()
  let value ← Traced.ofOption (readByte pml4 memory (src + BitVec.ofNat 64 j))
  Traced.access [.write segment (segment.vaddr + BitVec.ofNat 64 j)] ()
  Traced.ofOption (writeByte pml4 memory (segment.vaddr + BitVec.ofNat 64 j) value)

/-- `dst[j] = 0`. -/
def clearByteTraced (pml4 : Word) (segment : Segment) (j : ℕ) (memory : Memory) :
    Traced LoadAccess Memory := do
  Traced.access [.write segment (segment.vaddr + BitVec.ofNat 64 (segment.filesz.toNat + j))] ()
  Traced.ofOption (clearByte pml4 segment.vaddr segment.filesz.toNat j memory)

/-- Both loops over the bytes of a segment. -/
def fillSegmentTraced (pml4 base : Word) (segment : Segment) (memory : Memory) :
    Traced LoadAccess Memory := do
  let copied ← Traced.countedLoop (copyByteTraced pml4 (base + segment.offset) segment)
    segment.filesz.toNat memory
  Traced.countedLoop (clearByteTraced pml4 segment)
    (segment.memsz.toNat - segment.filesz.toNat) copied

/-- What follows the loop that maps the pages of a segment. -/
def fillMapped (pml4 base : Word) (segment : Segment) :
    (Memory × TableSupply) ⊕ (Memory × TableSupply) →
      Traced LoadAccess ((Bool × Memory × TableSupply) ⊕ (Memory × TableSupply))
  | Sum.inl state => pure (Sum.inl (false, state))
  | Sum.inr (memory, supply) => do
    let memory ← fillSegmentTraced pml4 base segment memory
    pure (Sum.inr (memory, supply))

/-- What follows the read of a program header. -/
def loadHeaderTraced (pml4 base : Word) (state : Memory × TableSupply) :
    Option Segment → Traced LoadAccess ((Bool × Memory × TableSupply) ⊕ (Memory × TableSupply))
  | none => pure (Sum.inr state)
  | some segment => do
    let mapped ← Traced.ofOption (leavingLoop (mapPage pml4 segment) segment.pages state)
    fillMapped pml4 base segment mapped

/-- The body of the loop over the headers. -/
def loadSegmentTraced (pml4 base phoff : Word) (i : ℕ) (state : Memory × TableSupply) :
    Traced LoadAccess ((Bool × Memory × TableSupply) ⊕ (Memory × TableSupply)) := do
  let phnum ← readFieldTraced 16 pml4 state.1 (base + 56#64)
  if i < phnum.toNat then do
    let header ← readPhdrTraced pml4 state.1 (base + phoff + BitVec.ofNat 64 i * 56#64)
    loadHeaderTraced pml4 base state header
  else pure (Sum.inl (true, state))

/-- What follows the loop over the headers. -/
def returnEntryTraced (pml4 base : Word) :
    (Bool × Memory × TableSupply) ⊕ (Memory × TableSupply) →
      Traced LoadAccess (Option Word × Memory × TableSupply)
  | Sum.inl (true, state) => do
    let entry ← readFieldTraced 64 pml4 state.1 (base + 24#64)
    pure (some entry, state)
  | Sum.inl (false, state) => pure (none, state)
  | Sum.inr _ => Traced.ofOption none

/-- What follows the checks of the header. -/
def loadSegmentsTraced (pml4 base : Word) (count : ℕ) (state : Memory × TableSupply) :
    Traced LoadAccess (Option Word × Memory × TableSupply) := do
  let phoff ← readFieldTraced 64 pml4 state.1 (base + 32#64)
  let outcome ← Traced.leavingLoop (loadSegmentTraced pml4 base phoff) count state
  returnEntryTraced pml4 base outcome

/-- `elf_load_from_initrd`. The entry point and the place of the headers are printed before the
magic is looked at. -/
def elfLoadTraced (pml4 : Word) (file : Option InitrdFile) (state : Memory × TableSupply) :
    Traced LoadAccess (Option Word × Memory × TableSupply) :=
  match file with
  | none => pure (none, state)
  | some f =>
    if f.size < ehdrSize then pure (none, state)
    else do
      let magic ← readFieldTraced 32 pml4 state.1 f.data
      Traced.access (fieldBytes 64 (f.data + 24#64) ++ fieldBytes 64 (f.data + 32#64)) ()
      if magic ≠ elfMagic then pure (none, state)
      else do
        let machine ← readFieldTraced 16 pml4 state.1 (f.data + 18#64)
        if machine ≠ emX8664 then pure (none, state)
        else loadSegmentsTraced pml4 f.data (2 ^ 16) state

/-! ### The values are those of the source -/

section Values

variable {pml4 base phoff : Word} {segment : Segment}

@[simp] theorem value_readFieldTraced (w : ℕ) (memory : Memory) (address : Word) :
    (readFieldTraced w pml4 memory address).value = readField w pml4 memory address := rfl

theorem value_readPhdrTraced (memory : Memory) (ph : Word) :
    (readPhdrTraced pml4 memory ph).value = readPhdr pml4 memory ph := by
  rw [readPhdrTraced, readPhdr, Traced.value_bind, value_readFieldTraced]
  cases readField 32 pml4 memory ph with
  | none => rfl
  | some pType =>
    simp only [Option.bind_some]
    split_ifs with htype
    · rfl
    · simp only [Traced.value_bind, value_readFieldTraced, Traced.value_pure, Option.map_eq_bind]
      rfl

theorem value_copyByteTraced (src : Word) (j : ℕ) (memory : Memory) :
    (copyByteTraced pml4 src segment j memory).value =
      copyByte pml4 src segment.vaddr j memory := by
  simp only [copyByteTraced, Traced.value_bind, Traced.value_access, Traced.value_ofOption,
    Option.bind_some, copyByte]

theorem value_clearByteTraced (j : ℕ) (memory : Memory) :
    (clearByteTraced pml4 segment j memory).value =
      clearByte pml4 segment.vaddr segment.filesz.toNat j memory := rfl

theorem value_fillSegmentTraced (memory : Memory) :
    (fillSegmentTraced pml4 base segment memory).value = fillSegment pml4 base segment memory := by
  rw [fillSegmentTraced, fillSegment, Traced.value_bind, Traced.value_countedLoop]
  simp only [Traced.value_countedLoop, value_copyByteTraced, value_clearByteTraced]

theorem value_loadSegmentTraced (i : ℕ) (state : Memory × TableSupply) :
    (loadSegmentTraced pml4 base phoff i state).value = loadSegment pml4 base phoff i state := by
  rw [loadSegmentTraced, loadSegment, Traced.value_bind, value_readFieldTraced]
  cases readField 16 pml4 state.1 (base + 56#64) with
  | none => rfl
  | some phnum =>
    simp only [Option.bind_some]
    split_ifs with hi
    · rw [Traced.value_bind, value_readPhdrTraced]
      rcases readPhdr pml4 state.1 (base + phoff + BitVec.ofNat 64 i * 56#64) with
        _ | _ | segment
      · rfl
      · rfl
      · simp only [Option.bind_some, loadHeaderTraced, Traced.value_bind, Traced.value_ofOption]
        rcases leavingLoop (mapPage pml4 segment) segment.pages state with
          _ | reached | ⟨memory, supply⟩
        · rfl
        · rfl
        · simp only [Option.bind_some, fillMapped, Traced.value_bind, value_fillSegmentTraced,
            Traced.value_pure, Option.map_eq_bind]
          rfl
    · rfl

/-- The loop over the headers, as far as it came. -/
theorem value_loopTraced (count : ℕ) (state : Memory × TableSupply) :
    (Traced.leavingLoop (loadSegmentTraced pml4 base phoff) count state).value =
      leavingLoop (loadSegment pml4 base phoff) count state := by
  rw [Traced.value_leavingLoop]
  simp only [value_loadSegmentTraced]

theorem value_returnEntryTraced
    (outcome : Option ((Bool × Memory × TableSupply) ⊕ (Memory × TableSupply))) :
    (outcome.bind fun reached ↦ (returnEntryTraced pml4 base reached).value) =
      returnEntry pml4 base outcome := by
  rcases outcome with _ | ⟨done | done, reached⟩ | reached
  · rfl
  · rfl
  · simp only [Option.bind_some, returnEntryTraced, returnEntry, Traced.value_bind,
      value_readFieldTraced, Traced.value_pure, Option.map_eq_bind]
    rfl
  · rfl

theorem value_loadSegmentsTraced (count : ℕ) (state : Memory × TableSupply) :
    (loadSegmentsTraced pml4 base count state).value =
      match readField 64 pml4 state.1 (base + 32#64) with
      | none => none
      | some phoff =>
        returnEntry pml4 base (leavingLoop (loadSegment pml4 base phoff) count state) := by
  rw [loadSegmentsTraced, Traced.value_bind, value_readFieldTraced]
  cases readField 64 pml4 state.1 (base + 32#64) with
  | none => rfl
  | some phoff =>
    simp only [Option.bind_some, Traced.value_bind, value_loopTraced]
    exact value_returnEntryTraced _

theorem value_elfLoadTraced (file : Option InitrdFile) (state : Memory × TableSupply) :
    (elfLoadTraced pml4 file state).value = elfLoadFromInitrd pml4 file state := by
  cases file with
  | none => rfl
  | some f =>
    simp only [elfLoadTraced, elfLoadFromInitrd, loadSegments]
    split_ifs with hsize
    · rfl
    rw [Traced.value_bind, value_readFieldTraced]
    rcases readField 32 pml4 state.1 f.data with _ | magic
    · rfl
    simp only [Option.bind_some, Traced.value_bind, Traced.value_access]
    split_ifs with hmagic
    · rfl
    rw [Traced.value_bind, value_readFieldTraced]
    rcases readField 16 pml4 state.1 (f.data + 18#64) with _ | machine
    · rfl
    simp only [Option.bind_some]
    split_ifs with hmachine
    · rfl
    exact value_loadSegmentsTraced (2 ^ 16) state

end Values

end Colix.Elf
