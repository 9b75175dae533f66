import Colix.Foundation.CountedLoop
import Colix.Initrd.Initrd
import Colix.Mm.TableSupply

/-!
# The ELF loader

`elf_load_from_initrd` of `kernel/elf_loader.c`, on the file that `initrd_find` returned. The loader
reads the file and writes the segments through the page tables of the kernel, as its comment says;
`none` is a page fault or a panic of `alloc_table`. The header of each segment is read when the loop
comes to it. Its call of `vmm_map` has three arguments, an address, a page and the flags, and is
read with the kernel's PML4 in front of them.
-/

set_option autoImplicit false
set_option relaxedAutoImplicit false

namespace Colix.Elf

open Foundation Mm Initrd

/-! ### Memory through the page tables -/

/-- An address that the processor accepts: bits 63 to 47 are the same. -/
def Canonical (virt : Word) : Prop :=
  virt.toNat < 2 ^ 47 ∨ 2 ^ 64 - 2 ^ 47 ≤ virt.toNat

instance (virt : Word) : Decidable (Canonical virt) :=
  inferInstanceAs (Decidable (_ ∨ _))

/-- Where an access goes. `none` is a fault. -/
def translate (memory : Memory) (pml4 virt : Word) : Option Word :=
  if Canonical virt then
    (pageMap memory pml4 (virtualPage virt)).map fun page ↦ page ||| (virt &&& 0xFFF#64)
  else none

/-- An access stays in the page that its address is mapped to. -/
theorem toNat_translate {memory : Memory} {pml4 virt phys page : Word}
    (haligned : PageAligned page) (hpage : pageMap memory pml4 (virtualPage virt) = some page)
    (htranslate : translate memory pml4 virt = some phys) :
    phys.toNat = page.toNat + virt.toNat % 4096 := by
  rw [translate, hpage, Option.map_some, Option.ite_none_right_eq_some, Option.some.injEq]
    at htranslate
  have hoffset := toNat_and_lowMask (by decide : 12 ≤ 64) virt
  have hpageEq : page.toNat = 2 ^ 12 * (page.toNat / 4096) := by
    rw [PageAligned] at haligned
    omega
  have hsum := Nat.two_pow_add_eq_or_of_lt (show virt.toNat % 4096 < 2 ^ 12 by omega)
    (page.toNat / 4096)
  rw [← htranslate.2, BitVec.toNat_or]
  rw [← hpageEq] at hsum
  rw [hsum]
  exact congrArg (page.toNat ||| ·) hoffset

/-- The byte at an address. -/
def readByte (pml4 : Word) (memory : Memory) (address : Word) : Option Byte :=
  (translate memory pml4 address).map fun phys ↦ memory phys.toNat

/-- The number that consecutive bytes represent, lowest byte first. -/
def readNat (pml4 : Word) (memory : Memory) : ℕ → Word → Option ℕ
  | 0, _ => some 0
  | count + 1, address =>
    match readByte pml4 memory address with
    | none => none
    | some low =>
      (readNat pml4 memory count (address + 1#64)).map fun rest ↦ low.toNat + 256 * rest

/-- A field of a structure. -/
def readField (w : ℕ) (pml4 : Word) (memory : Memory) (address : Word) : Option (BitVec w) :=
  (readNat pml4 memory (w / 8) address).map (BitVec.ofNat w)

/-- A number depends on its bytes. -/
theorem readNat_congr {pml4 : Word} {memory next : Memory} {count : ℕ} {address : Word}
    (hagree : ∀ k < count, readByte pml4 next (address + BitVec.ofNat 64 k) =
      readByte pml4 memory (address + BitVec.ofNat 64 k)) :
    readNat pml4 next count address = readNat pml4 memory count address := by
  induction count generalizing address with
  | zero => rfl
  | succ count ih =>
    have hfirst := hagree 0 (Nat.succ_pos count)
    rw [show BitVec.ofNat 64 0 = 0#64 from rfl, BitVec.add_zero] at hfirst
    have hrest : readNat pml4 next count (address + 1#64) =
        readNat pml4 memory count (address + 1#64) := by
      refine ih fun k hk ↦ ?_
      rw [BitVec.add_assoc, ← BitVec.ofNat_add, Nat.add_comm]
      exact hagree (k + 1) (by omega)
    rw [readNat, readNat, hfirst, hrest]

/-- A store of a byte. -/
def writeByte (pml4 : Word) (memory : Memory) (address : Word) (value : Byte) : Option Memory :=
  (translate memory pml4 address).map fun phys ↦ store memory phys.toNat value

/-! ### The source -/

/-- `ELF_MAGIC`, the `e_machine` of x86-64, and `PT_LOAD`. -/
abbrev elfMagic : Word32 := 0x464C457F#32
abbrev emX8664 : BitVec 16 := 0x3E#16
abbrev ptLoad : Word32 := 1#32

/-- `sizeof(elf64_ehdr_t)`. -/
abbrev ehdrSize : Word32 := 64#32

/-- What the loader reads of a `PT_LOAD` header. -/
structure Segment where
  vaddr : Word
  memsz : Word
  filesz : Word
  offset : Word
  deriving DecidableEq

/-- `page_start`. -/
def Segment.pageStart (segment : Segment) : Word :=
  segment.vaddr &&& ~~~0xFFF#64

/-- `page_end`. -/
def Segment.pageEnd (segment : Segment) : Word :=
  (segment.vaddr + segment.memsz + 0xFFF#64) &&& ~~~0xFFF#64

/-- `pages`. -/
def Segment.pages (segment : Segment) : ℕ :=
  ((segment.pageEnd - segment.pageStart) >>> 12).toNat

/-- `page_start + p * 0x1000`. -/
def Segment.page (segment : Segment) (p : ℕ) : Word :=
  segment.pageStart + BitVec.ofNat 64 p * 0x1000#64

/-- A header: the segment, or nothing for a type other than `PT_LOAD`. -/
def readPhdr (pml4 : Word) (memory : Memory) (ph : Word) : Option (Option Segment) :=
  match readField 32 pml4 memory ph with
  | none => none
  | some pType =>
    if pType ≠ ptLoad then some none
    else
      (readField 64 pml4 memory (ph + 16#64)).bind fun vaddr ↦
        (readField 64 pml4 memory (ph + 40#64)).bind fun memsz ↦
          (readField 64 pml4 memory (ph + 32#64)).bind fun filesz ↦
            (readField 64 pml4 memory (ph + 8#64)).map fun offset ↦
              some ⟨vaddr, memsz, filesz, offset⟩

/-- The body of the loop that maps the pages of a segment. It leaves the loop when there is no
page. -/
def mapPage (pml4 : Word) (segment : Segment) (p : ℕ) (state : Memory × TableSupply) :
    Option ((Memory × TableSupply) ⊕ (Memory × TableSupply)) :=
  match pmmAllocPage state.2.pmm with
  | (pa, pmm) =>
    if pa = 0#64 then some (Sum.inl (state.1, { state.2 with pmm := pmm }))
    else
      (vmmMap allocTable pml4 (segment.page p) pa 3#64 state.1 { state.2 with pmm := pmm }).map
        Sum.inr

/-- The body of the loop that copies a segment's bytes: `dst[j] = src[j]`. -/
def copyByte (pml4 src dst : Word) (j : ℕ) (memory : Memory) : Option Memory :=
  (readByte pml4 memory (src + BitVec.ofNat 64 j)).bind
    (writeByte pml4 memory (dst + BitVec.ofNat 64 j))

/-- The body of the loop that clears the rest: `dst[j] = 0`. -/
def clearByte (pml4 dst : Word) (filesz j : ℕ) (memory : Memory) : Option Memory :=
  writeByte pml4 memory (dst + BitVec.ofNat 64 (filesz + j)) 0#8

/-- Both loops over the bytes of a segment. -/
def fillSegment (pml4 base : Word) (segment : Segment) (memory : Memory) : Option Memory :=
  (countedLoop (copyByte pml4 (base + segment.offset) segment.vaddr) segment.filesz.toNat
    memory).bind
      (countedLoop (clearByte pml4 segment.vaddr segment.filesz.toNat)
        (segment.memsz.toNat - segment.filesz.toNat))

/-- The body of the loop over the headers. It leaves the loop at its end, and when there is no page
for a segment. -/
def loadSegment (pml4 base phoff : Word) (i : ℕ) (state : Memory × TableSupply) :
    Option ((Bool × Memory × TableSupply) ⊕ (Memory × TableSupply)) :=
  match readField 16 pml4 state.1 (base + 56#64) with
  | none => none
  | some phnum =>
    if i < phnum.toNat then
      match readPhdr pml4 state.1 (base + phoff + BitVec.ofNat 64 i * 56#64) with
      | none => none
      | some none => some (Sum.inr state)
      | some (some segment) =>
        match leavingLoop (mapPage pml4 segment) segment.pages state with
        | none => none
        | some (Sum.inl state) => some (Sum.inl (false, state))
        | some (Sum.inr (memory, supply)) =>
          (fillSegment pml4 base segment memory).map fun memory ↦ Sum.inr (memory, supply)
    else some (Sum.inl (true, state))

/-- The loop over the headers. Their number has 16 bits, so it is left within 2^16 iterations. -/
def loadSegments (pml4 base phoff : Word) (state : Memory × TableSupply) :
    Option ((Bool × Memory × TableSupply) ⊕ (Memory × TableSupply)) :=
  leavingLoop (loadSegment pml4 base phoff) (2 ^ 16) state

/-- What the loader returns when the loop over the headers was left. -/
def returnEntry (pml4 base : Word) :
    Option ((Bool × Memory × TableSupply) ⊕ (Memory × TableSupply)) →
      Option (Option Word × Memory × TableSupply)
  | some (Sum.inl (true, state)) =>
    (readField 64 pml4 state.1 (base + 24#64)).map fun entry ↦ (some entry, state)
  | some (Sum.inl (false, state)) => some (none, state)
  | some (Sum.inr _) => none
  | none => none

/-- `elf_load_from_initrd`: the entry point, or `none` for `false`. -/
def elfLoadFromInitrd (pml4 : Word) (file : Option InitrdFile) (state : Memory × TableSupply) :
    Option (Option Word × Memory × TableSupply) :=
  match file with
  | none => some (none, state)
  | some f =>
    if f.size < ehdrSize then some (none, state)
    else
      match readField 32 pml4 state.1 f.data with
      | none => none
      | some magic =>
        if magic ≠ elfMagic then some (none, state)
        else
          match readField 16 pml4 state.1 (f.data + 18#64) with
          | none => none
          | some machine =>
            if machine ≠ emX8664 then some (none, state)
            else
              match readField 64 pml4 state.1 (f.data + 32#64) with
              | none => none
              | some phoff => returnEntry pml4 f.data (loadSegments pml4 f.data phoff state)

/-- The loader rejects the file by its header, before it looks at a segment. -/
def RejectsHeader (pml4 : Word) (memory : Memory) : Option InitrdFile → Prop
  | none => True
  | some f => f.size < ehdrSize ∨
      (∃ magic, readField 32 pml4 memory f.data = some magic ∧ magic ≠ elfMagic) ∨
        ∃ machine, readField 16 pml4 memory (f.data + 18#64) = some machine ∧ machine ≠ emX8664

/-- A file whose header is in order. -/
structure AcceptsHeader (pml4 : Word) (memory : Memory) (f : InitrdFile) (phoff : Word) : Prop where
  size : ¬ f.size < ehdrSize
  magic : readField 32 pml4 memory f.data = some elfMagic
  machine : readField 16 pml4 memory (f.data + 18#64) = some emX8664
  phoff : readField 64 pml4 memory (f.data + 32#64) = some phoff

section Load

variable {pml4 base : Word} {file : Option InitrdFile} {state next : Memory × TableSupply}
  {result : Option Word}

/-- What an iteration of the loop over the headers does: it finds no header left, skips a header, or
maps the pages of a segment until there is none left or all are mapped, and fills them. -/
inductive SegmentStep (pml4 base phoff : Word) (i : ℕ) (state : Memory × TableSupply) :
    (Bool × Memory × TableSupply) ⊕ (Memory × TableSupply) → Prop
  | done {phnum : BitVec 16} (hphnum : readField 16 pml4 state.1 (base + 56#64) = some phnum)
      (hi : ¬ i < phnum.toNat) : SegmentStep pml4 base phoff i state (Sum.inl (true, state))
  | skipped {phnum : BitVec 16} (hphnum : readField 16 pml4 state.1 (base + 56#64) = some phnum)
      (hi : i < phnum.toNat)
      (hphdr : readPhdr pml4 state.1 (base + phoff + BitVec.ofNat 64 i * 56#64) = some none) :
      SegmentStep pml4 base phoff i state (Sum.inr state)
  | exhausted {phnum : BitVec 16} {segment : Segment} {exit : Memory × TableSupply}
      (hphnum : readField 16 pml4 state.1 (base + 56#64) = some phnum) (hi : i < phnum.toNat)
      (hphdr : readPhdr pml4 state.1 (base + phoff + BitVec.ofNat 64 i * 56#64) =
        some (some segment))
      (hmap : leavingLoop (mapPage pml4 segment) segment.pages state = some (Sum.inl exit)) :
      SegmentStep pml4 base phoff i state (Sum.inl (false, exit))
  | loaded {phnum : BitVec 16} {segment : Segment} {memory filled : Memory} {supply : TableSupply}
      (hphnum : readField 16 pml4 state.1 (base + 56#64) = some phnum) (hi : i < phnum.toNat)
      (hphdr : readPhdr pml4 state.1 (base + phoff + BitVec.ofNat 64 i * 56#64) =
        some (some segment))
      (hmap : leavingLoop (mapPage pml4 segment) segment.pages state =
        some (Sum.inr (memory, supply)))
      (hfill : fillSegment pml4 base segment memory = some filled) :
      SegmentStep pml4 base phoff i state (Sum.inr (filled, supply))

/-- An iteration that does not fault is one of these. -/
theorem loadSegment_cases {phoff : Word} {i : ℕ}
    {outcome : (Bool × Memory × TableSupply) ⊕ (Memory × TableSupply)}
    (hbody : loadSegment pml4 base phoff i state = some outcome) :
    SegmentStep pml4 base phoff i state outcome := by
  rw [loadSegment] at hbody
  split at hbody
  · cases hbody
  · rename_i phnum hphnum
    split_ifs at hbody with hi
    · split at hbody
      · cases hbody
      · rename_i hphdr
        cases hbody
        exact .skipped hphnum hi hphdr
      · rename_i segment hphdr
        split at hbody
        · cases hbody
        · rename_i exit hmap
          cases hbody
          exact .exhausted hphnum hi hphdr hmap
        · rename_i memory supply hmap
          obtain ⟨filled, hfill, rfl⟩ := Option.map_eq_some_iff.mp hbody
          exact .loaded hphnum hi hphdr hmap hfill
    · cases hbody
      exact .done hphnum hi

/-- What the checks of the header read, when they let a file pass. -/
theorem not_rejectsHeader {memory : Memory} {f : InitrdFile} (hsize : ¬ f.size < ehdrSize)
    (hmagic : readField 32 pml4 memory f.data = some elfMagic)
    (hmachine : readField 16 pml4 memory (f.data + 18#64) = some emX8664) :
    ¬ RejectsHeader pml4 memory (some f) := by
  rintro (hsmall | ⟨magic, hvalue, hne⟩ | ⟨machine, hvalue, hne⟩)
  · exact hsize hsmall
  · exact hne (Option.some.inj (hvalue.symm.trans hmagic))
  · exact hne (Option.some.inj (hvalue.symm.trans hmachine))

/-- A file that is rejected by its header is not accepted by it. -/
theorem AcceptsHeader.not_rejects {f : InitrdFile} {phoff : Word} {memory : Memory}
    (haccepts : AcceptsHeader pml4 memory f phoff) : ¬ RejectsHeader pml4 memory (some f) :=
  not_rejectsHeader haccepts.size haccepts.magic haccepts.machine

/-- With a header in order the loader goes on to the segments. -/
theorem AcceptsHeader.elfLoad {f : InitrdFile} {phoff : Word}
    (haccepts : AcceptsHeader pml4 state.1 f phoff) :
    elfLoadFromInitrd pml4 (some f) state =
      returnEntry pml4 f.data (loadSegments pml4 f.data phoff state) := by
  rw [elfLoadFromInitrd, if_neg haccepts.size]
  simp only [haccepts.magic, haccepts.machine, haccepts.phoff, ne_eq, not_true_eq_false, if_false]

/-- All that a load that returns can have done: it rejected the header, or went on to the
segments. -/
theorem elfLoad_inv (hload : elfLoadFromInitrd pml4 file state = some (result, next)) :
    (RejectsHeader pml4 state.1 file ∧ result = none ∧ next = state) ∨
      ∃ f phoff, file = some f ∧ AcceptsHeader pml4 state.1 f phoff ∧
        returnEntry pml4 f.data (loadSegments pml4 f.data phoff state) = some (result, next) := by
  cases file with
  | none =>
    cases hload
    exact .inl ⟨trivial, rfl, rfl⟩
  | some f =>
    rw [elfLoadFromInitrd] at hload
    split_ifs at hload with hsmall
    · cases hload
      exact .inl ⟨.inl hsmall, rfl, rfl⟩
    rcases hmagic : readField 32 pml4 state.1 f.data with _ | magic
    · simp only [hmagic] at hload
      cases hload
    simp only [hmagic] at hload
    split_ifs at hload with hbad
    · cases hload
      exact .inl ⟨.inr (.inl ⟨magic, hmagic, hbad⟩), rfl, rfl⟩
    rw [not_not] at hbad
    subst hbad
    rcases hmachine : readField 16 pml4 state.1 (f.data + 18#64) with _ | machine
    · simp only [hmachine] at hload
      cases hload
    simp only [hmachine] at hload
    split_ifs at hload with hother
    · cases hload
      exact .inl ⟨.inr (.inr ⟨machine, hmachine, hother⟩), rfl, rfl⟩
    rw [not_not] at hother
    subst hother
    rcases hphoff : readField 64 pml4 state.1 (f.data + 32#64) with _ | phoff
    · simp only [hphoff] at hload
      cases hload
    simp only [hphoff] at hload
    exact .inr ⟨f, phoff, rfl, ⟨hsmall, hmagic, hmachine, hphoff⟩, hload⟩

/-- What the loader returns tells how the loop over the headers was left. -/
theorem returnEntry_inv {outcome : Option ((Bool × Memory × TableSupply) ⊕ (Memory × TableSupply))}
    (hreturn : returnEntry pml4 base outcome = some (result, next)) :
    (result = none ∧ outcome = some (Sum.inl (false, next))) ∨
      ∃ entry, result = some entry ∧ outcome = some (Sum.inl (true, next)) ∧
        readField 64 pml4 next.1 (base + 24#64) = some entry := by
  match outcome, hreturn with
  | some (Sum.inl (false, last)), hreturn =>
    simp only [returnEntry, Option.some.injEq, Prod.mk.injEq] at hreturn
    obtain ⟨rfl, rfl⟩ := hreturn
    exact .inl ⟨rfl, rfl⟩
  | some (Sum.inl (true, last)), hreturn =>
    simp only [returnEntry, Option.map_eq_some_iff, Prod.mk.injEq] at hreturn
    obtain ⟨entry, hentry, rfl, rfl⟩ := hreturn
    exact .inr ⟨entry, rfl, rfl, hentry⟩

/-- A load that returns left the state as it was, or the loop over the headers made it. -/
theorem elfLoad_cases (hload : elfLoadFromInitrd pml4 file state = some (result, next)) :
    next = state ∨ ∃ f phoff done, file = some f ∧
      readField 64 pml4 state.1 (f.data + 32#64) = some phoff ∧
        loadSegments pml4 f.data phoff state = some (Sum.inl (done, next)) := by
  rcases elfLoad_inv hload with ⟨-, -, hsame⟩ | ⟨f, phoff, hfile, haccepts, hreturn⟩
  · exact .inl hsame
  rcases returnEntry_inv hreturn with ⟨-, hleft⟩ | ⟨entry, -, hleft, -⟩
  · exact .inr ⟨f, phoff, false, hfile, haccepts.phoff, hleft⟩
  · exact .inr ⟨f, phoff, true, hfile, haccepts.phoff, hleft⟩

end Load

end Colix.Elf
