import Colix.Elf.KernelKept
import Colix.Mm.VmmInitPool
import Colix.Proc.IdentityPages

/-!
# A file with one segment

A file whose headers lie in one page that is mapped to itself, with a single `PT_LOAD` segment of
one byte. `oneSegment_loads` says that such a file loads, wherever its segment is: the loader binds
the segment's page to the next page of the page allocator. Linked at 0x400000, where `sh.ld` puts
the programs of this repository, that page is the first of the heap (`heapSegment_not_kept`); linked
at 0x10000000 the load keeps the kernel's addresses.
-/

set_option autoImplicit false
set_option relaxedAutoImplicit false

namespace Colix.Elf

open Foundation Mm Initrd Proc

/-! ### Reading a page that is mapped to itself -/

section Read

variable {memory : Memory} {pml4 page address : Word} {count : ℕ}

/-- An address of a page that is mapped to itself is its own. -/
theorem translate_of_self (haligned : PageAligned page) (hcanonical : page.toNat + 4096 ≤ 2 ^ 47)
    (hpage : pageMap memory pml4 (virtualPage page) = some page)
    (haddress : InPage page address.toNat) : translate memory pml4 address = some address := by
  rw [InPage] at haddress
  rw [PageAligned] at haligned
  have hsame : virtualPage address = virtualPage page := by
    apply BitVec.eq_of_toNat_eq
    rw [toNat_virtualPage, toNat_virtualPage]
    omega
  have hphys : translate memory pml4 address = some (page ||| (address &&& 0xFFF#64)) := by
    have hlow : Canonical address := Or.inl (by omega)
    rw [translate, if_pos hlow, hsame, hpage, Option.map_some]
  have hnumber := toNat_translate haligned (hsame.symm ▸ hpage) hphys
  rw [hphys]
  congr 1
  apply BitVec.eq_of_toNat_eq
  rw [hnumber]
  omega

/-- So its bytes are those of the memory. -/
theorem readNat_of_self (haligned : PageAligned page) (hcanonical : page.toNat + 4096 ≤ 2 ^ 47)
    (hpage : pageMap memory pml4 (virtualPage page) = some page)
    (hge : page.toNat ≤ address.toNat) (hle : address.toNat + count ≤ page.toNat + 4096) :
    readNat pml4 memory count address = some (loadNat count memory address.toNat) := by
  induction count generalizing address with
  | zero => rfl
  | succ count ih =>
    have hhere := translate_of_self haligned hcanonical hpage
      (show InPage page address.toNat from ⟨hge, by omega⟩)
    have hnext : (address + 1#64).toNat = address.toNat + 1 := by
      rw [BitVec.toNat_add, BitVec.toNat_ofNat]
      omega
    rw [readNat, readByte, hhere, Option.map_some]
    simp only
    rw [ih (by omega) (by omega), hnext]
    rfl

/-- A field of a structure in such a page. -/
theorem readField_of_self {w offset : ℕ} (haligned : PageAligned page)
    (hcanonical : page.toNat + 4096 ≤ 2 ^ 47)
    (hpage : pageMap memory pml4 (virtualPage page) = some page)
    (haddress : address.toNat = page.toNat + offset) (hfits : offset + w / 8 ≤ 4096) :
    readField w pml4 memory address = some (load w memory (page.toNat + offset)) := by
  rw [readField, readNat_of_self haligned hcanonical hpage (by omega) (by omega), Option.map_some,
    haddress]
  rfl

end Read

/-! ### The file -/

/-- A segment of one byte, which is not in the file. -/
def oneByte (vaddr offset : Word) : Segment :=
  ⟨vaddr, 1#64, 0#64, offset⟩

/-- The headers of a file whose only segment is such a one. -/
structure OneSegment (memory : Memory) (page : ℕ) (vaddr entry : Word) : Prop where
  magic : load 32 memory page = elfMagic
  machine : load 16 memory (page + 18) = emX8664
  entry : load 64 memory (page + 24) = entry
  phoff : load 64 memory (page + 32) = 64#64
  phnum : load 16 memory (page + 56) = 1#16
  type : load 32 memory (page + 64) = ptLoad
  vaddr : load 64 memory (page + 80) = vaddr
  filesz : load 64 memory (page + 96) = 0#64
  memsz : load 64 memory (page + 104) = 1#64

/-- The headers depend on the first 120 bytes. -/
theorem OneSegment.congr {memory next : Memory} {page : ℕ} {vaddr entry : Word}
    (hfile : OneSegment memory page vaddr entry)
    (hagree : ∀ position, page ≤ position → position < page + 120 →
      next position = memory position) : OneSegment next page vaddr entry := by
  have hload : ∀ {w : ℕ} (offset : ℕ), offset + w / 8 ≤ 120 →
      load w next (page + offset) = load w memory (page + offset) :=
    fun offset hfits ↦ load_congr fun position hge hlt ↦ hagree position (by omega) (by omega)
  exact ⟨(hload 0 (by decide)).trans hfile.magic, (hload 18 (by decide)).trans hfile.machine,
    (hload 24 (by decide)).trans hfile.entry, (hload 32 (by decide)).trans hfile.phoff,
    (hload 56 (by decide)).trans hfile.phnum, (hload 64 (by decide)).trans hfile.type,
    (hload 80 (by decide)).trans hfile.vaddr, (hload 96 (by decide)).trans hfile.filesz,
    (hload 104 (by decide)).trans hfile.memsz⟩

/-- The file can be read in its page. -/
structure FileReady (pml4 page vaddr entry : Word) (memory : Memory) : Prop where
  aligned : PageAligned page
  canonical : page.toNat + 4096 ≤ 2 ^ 47
  mapped : pageMap memory pml4 (virtualPage page) = some page
  file : OneSegment memory page.toNat vaddr entry

section File

variable {pml4 page vaddr entry : Word} {memory : Memory}

/-- A field of the file. -/
theorem FileReady.readField {w offset : ℕ} (hfile : FileReady pml4 page vaddr entry memory)
    (hfits : offset + w / 8 ≤ 4096) (hoffset : offset < 4096) {value : BitVec w}
    (hload : load w memory (page.toNat + offset) = value) :
    readField w pml4 memory (page + BitVec.ofNat 64 offset) = some value := by
  have hcanonical := hfile.canonical
  have haddress : (page + BitVec.ofNat 64 offset).toNat = page.toNat + offset := by
    rw [BitVec.toNat_add, BitVec.toNat_ofNat]
    omega
  rw [readField_of_self hfile.aligned hcanonical hfile.mapped haddress hfits, hload]

/-- The one header of the file. -/
theorem FileReady.readPhdr (hfile : FileReady pml4 page vaddr entry memory) :
    ∃ offset, readPhdr pml4 memory (page + 64#64 + BitVec.ofNat 64 0 * 56#64) =
      some (some (oneByte vaddr offset)) := by
  have hplace : page + 64#64 + BitVec.ofNat 64 0 * 56#64 = page + 64#64 := by
    rw [show BitVec.ofNat 64 0 * 56#64 = 0#64 from by decide, BitVec.add_zero]
  have hfield : ∀ offset : Word, page + 64#64 + offset = page + (64#64 + offset) :=
    fun offset ↦ BitVec.add_assoc _ _ _
  have htype := hfile.readField (by decide) (by decide) hfile.file.type
  have hvaddr := hfile.readField (by decide) (by decide) hfile.file.vaddr
  have hfilesz := hfile.readField (by decide) (by decide) hfile.file.filesz
  have hmemsz := hfile.readField (by decide) (by decide) hfile.file.memsz
  have hoffset : Elf.readField 64 pml4 memory (page + BitVec.ofNat 64 72) =
      some (load 64 memory (page.toNat + 72)) :=
    hfile.readField (by decide) (by decide) rfl
  refine ⟨load 64 memory (page.toNat + 72), ?_⟩
  rw [hplace, Elf.readPhdr, htype]
  simp only [ne_eq, not_true_eq_false, ↓reduceIte]
  rw [hfield, hfield, hfield, hfield]
  change (Elf.readField 64 pml4 memory (page + BitVec.ofNat 64 80)).bind _ = _
  rw [hvaddr, Option.bind_some]
  change (Elf.readField 64 pml4 memory (page + BitVec.ofNat 64 104)).bind _ = _
  rw [hmemsz, Option.bind_some]
  change (Elf.readField 64 pml4 memory (page + BitVec.ofNat 64 96)).bind _ = _
  rw [hfilesz, Option.bind_some]
  change (Elf.readField 64 pml4 memory (page + BitVec.ofNat 64 72)).map _ = _
  rw [hoffset, Option.map_some]
  rfl

/-- A segment of one byte at a page boundary has one page. -/
theorem pages_oneByte (hvaddr : PageAligned vaddr) (offset : Word) :
    (oneByte vaddr offset).pages = 1 ∧
      (oneByte vaddr offset).page 0 = vaddr := by
  rw [PageAligned] at hvaddr
  have hstart : (oneByte vaddr offset).pageStart = vaddr := by
    apply BitVec.eq_of_toNat_eq
    have hpage := toNat_pageOf vaddr
    change (vaddr &&& ~~~0xFFF#64).toNat = _
    change (vaddr &&& ~~~0xFFF#64).toNat = _ at hpage
    omega
  have hend : (oneByte vaddr offset).pageEnd = vaddr + 0x1000#64 := by
    apply BitVec.eq_of_toNat_eq
    have hpage := toNat_pageOf (vaddr + 1#64 + 0xFFF#64)
    change (vaddr + 1#64 + 0xFFF#64 &&& ~~~0xFFF#64).toNat = _
    change (vaddr + 1#64 + 0xFFF#64 &&& ~~~0xFFF#64).toNat = _ at hpage
    rw [hpage]
    simp only [BitVec.toNat_add, BitVec.toNat_ofNat]
    omega
  refine ⟨?_, ?_⟩
  · rw [Segment.pages, hstart, hend, show vaddr + 0x1000#64 - vaddr = 0x1000#64 by grind]
    decide
  · rw [Segment.page, hstart, show BitVec.ofNat 64 0 * 0x1000#64 = 0#64 from by decide,
      BitVec.add_zero]

end File

/-! ### The load -/

section Load

variable {pml4 page vaddr entry offset : Word} {boot : Memory × TableSupply} {origin : SpaceState}

/-- The segment stays clear of the page of the file. -/
theorem segmentApart_oneByte (hvaddr : PageAligned vaddr)
    (hne : virtualPage page ≠ virtualPage vaddr) :
    SegmentApart (fun address ↦ address = page) (oneByte vaddr offset) := by
  obtain ⟨hpages, hplace⟩ := pages_oneByte hvaddr offset
  refine ⟨?_, ?_⟩
  · rintro p hp _ rfl
    rw [hpages] at hp
    obtain rfl : p = 0 := by omega
    rw [hplace]
    exact hne
  · rw [hpages]
    rw [PageAligned] at hvaddr
    change vaddr.toNat % 4096 + max 0 1 ≤ 1 * 4096
    omega

/-- The tables that the address spaces got are of the pool. -/
def PoolTables (pml4 : Word) (origin : SpaceState) (next : Memory) : Prop :=
  ∀ root table, origin.Root pml4 root → TableOf next root table →
    TableOf origin.memory root table ∨ table.toNat < 0x200000

/-- Its page is mapped when the page allocator has a page, and the pool has tables. -/
theorem mapPage_oneByte (hvaddr : PageAligned vaddr)
    (hspaces : Spaces (origin.Root pml4) origin.memory origin.supply)
    (hfree : ∃ free, FreePage origin.supply.pmm free)
    (hpool : origin.supply.ptPoolUsed.toNat + 3 * 4096 ≤ 262144) :
    (∃ state, leavingLoop (mapPage pml4 (oneByte vaddr offset)) (oneByte vaddr offset).pages
        (origin.memory, origin.supply) = some (Sum.inr state) ∧
          PoolTables pml4 origin state.1) ∧
      CleanSegment pml4 (oneByte vaddr offset) (origin.memory, origin.supply) := by
  obtain ⟨hpages, hplace⟩ := pages_oneByte hvaddr offset
  rcases hspaces.ready.region.pmmAlloc_cases with ⟨-, hnone⟩ | ⟨pa, pmm, halloc, hne, htook⟩
  · obtain ⟨free, hfree⟩ := hfree
    exact absurd hfree (hnone free)
  · have hsupply := htook.supply hspaces.ready
    obtain ⟨next, supplyNext, hmap, hused⟩ :=
      vmmMap_pool pml4 vaddr pa 3#64 origin.memory hsupply.ready hpool
    refine ⟨⟨(next, supplyNext), ?_, fun root table hroot htable ↦ ?_⟩, ?_⟩
    · rw [hpages]
      change mapPage pml4 (oneByte vaddr offset) 0 (origin.memory, origin.supply) = _
      simp only [mapPage, pmmAllocPage, halloc, if_neg hne, hplace, hmap, Option.map_some]
    · have hpoolTwo : origin.supply.ptPoolUsed.toNat + 2 * 4096 ≤ 262144 := by omega
      have hupdate := (hspaces.take htook).map (Or.inl rfl)
        (cleanDirectories_of_pool pml4 vaddr hsupply.ready hpoolTwo) hmap
      refine (hupdate.tables root table hroot htable).imp_right fun havailable ↦ ?_
      rcases havailable.low_or_free hsupply.ready with hlow | hpage
      · exact hlow
      · -- the map took nothing from the page allocator, so the page is free and no table
        have hstill : Available supplyNext table := Or.inr (by rwa [hused.pmm_eq])
        exact absurd hstill (hupdate.spaces.used root table hroot htable)
    · intro p hp reached other pmmOther hloop hother
      rw [hpages] at hp
      obtain rfl : p = 0 := by omega
      cases hloop
      rw [pmmAllocPage] at hother
      replace hother : pmmAlloc origin.supply.pmm = (other, pmmOther) := hother
      rw [halloc, Prod.mk.injEq] at hother
      rw [← hother.2]
      have hpoolTwo : origin.supply.ptPoolUsed.toNat + 2 * 4096 ≤ 262144 := by omega
      exact cleanDirectories_of_pool pml4 _ hsupply.ready hpoolTwo

/-- The first iteration of the loop over the headers loads the segment. -/
theorem loadSegment_oneByte (boot : Memory × TableSupply)
    (hspaces : Spaces (origin.Root pml4) origin.memory origin.supply)
    (hfile : FileReady pml4 page vaddr entry origin.memory) (hvaddr : PageAligned vaddr)
    (hcanonical : Canonical vaddr) (hne : virtualPage page ≠ virtualPage vaddr)
    (hfree : ∃ free, FreePage origin.supply.pmm free)
    (hpool : origin.supply.ptPoolUsed.toNat + 3 * 4096 ≤ 262144) :
    ∃ next supplyNext,
      loadSegment pml4 page 64#64 0 (origin.memory, origin.supply) =
          some (Sum.inr (next, supplyNext)) ∧
        Loading pml4 boot (fun address ↦ address = page) origin next supplyNext ∧
          (∃ target, pageMap next pml4 (virtualPage vaddr) = some target ∧
            FreePage origin.supply.pmm target) ∧ PoolTables pml4 origin next := by
  obtain ⟨offset, hphdr⟩ := hfile.readPhdr
  obtain ⟨hpages, hplace⟩ := pages_oneByte hvaddr offset
  have hapart : SegmentApart (fun address ↦ address = page) (oneByte vaddr offset) :=
    segmentApart_oneByte hvaddr hne
  obtain ⟨⟨⟨middle, supplyMiddle⟩, hloop, hpoolTables⟩, hclean⟩ :=
    mapPage_oneByte hvaddr hspaces hfree hpool
  have hstart : Loading pml4 boot (fun address ↦ address = page) origin origin.memory
    origin.supply := loading_start hspaces
  obtain ⟨hmiddle, hmapped⟩ := hstart.mapPages hspaces.ready hapart.apart hclean hloop
  have hsingle : 0 < (oneByte vaddr offset).pages := by
    rw [hpages]
    exact Nat.one_pos
  obtain ⟨target, htarget, hloaded⟩ := hmapped 0 hsingle
  rw [hplace] at htarget
  obtain ⟨next, hwrite⟩ : ∃ next, writeByte pml4 middle vaddr 0#8 = some next := by
    rw [writeByte, translate, if_pos hcanonical, htarget]
    exact ⟨_, rfl⟩
  have hfill : fillSegment pml4 page (oneByte vaddr offset) middle = some next := by
    change writeByte pml4 middle (vaddr + BitVec.ofNat 64 (0 + 0)) 0#8 = some next
    rwa [show vaddr + BitVec.ofNat 64 (0 + 0) = vaddr from BitVec.add_zero vaddr]
  obtain ⟨-, hsame⟩ := hmiddle.write_same hspaces.ready htarget hloaded hwrite
  obtain ⟨hnext, hstill⟩ := hmiddle.fillSegment hspaces.ready hmapped hapart hfill
  obtain ⟨last, hlast, hlastLoaded⟩ := hstill 0 hsingle
  rw [hplace] at hlast
  refine ⟨next, supplyMiddle, ?_, hnext, ⟨last, hlast, hlastLoaded.free⟩, ?_⟩
  swap
  · rintro root table hroot ⟨path, hlength, hreach⟩
    exact hpoolTables root table hroot
      ⟨path, hlength, (hsame root hroot path (by omega)).symm.trans hreach⟩
  have hphnum := hfile.readField (by decide) (by decide) hfile.file.phnum
  rw [loadSegment, show (56#64 : Word) = BitVec.ofNat 64 56 from rfl, hphnum]
  simp only [show 0 < (1#16 : BitVec 16).toNat from by decide, ↓reduceIte]
  rw [show BitVec.ofNat 64 56 = (56#64 : Word) from rfl, hphdr]
  simp only
  rw [hloop]
  simp only
  rw [hfill, Option.map_some]

/-- Its header is in order. -/
theorem FileReady.accepts {memory : Memory} (hfile : FileReady pml4 page vaddr entry memory)
    (name : Word) {size : Word32} (hsize : ehdrSize ≤ size) :
    AcceptsHeader pml4 memory ⟨name, size, page⟩ 64#64 := by
  refine ⟨?_, ?_, hfile.readField (by decide) (by decide) hfile.file.machine,
    hfile.readField (by decide) (by decide) hfile.file.phoff⟩
  · rw [BitVec.lt_def]
    exact Nat.not_lt.mpr (BitVec.le_def.mp hsize)
  · have hread : Elf.readField 32 pml4 memory (page + BitVec.ofNat 64 0) = some elfMagic :=
      hfile.readField (by decide) (by decide) hfile.file.magic
    rwa [show page + BitVec.ofNat 64 0 = page from BitVec.add_zero page] at hread

/-- The file stays as it was while it is loaded. -/
theorem FileReady.kept {next : Memory} {supplyNext : TableSupply}
    (hfile : FileReady pml4 page vaddr entry origin.memory)
    (hspaces : Spaces (origin.Root pml4) origin.memory origin.supply)
    (htaken : ¬ Available origin.supply page) (hunused : ¬ TableOf origin.memory pml4 page)
    (hload : Loading pml4 boot (fun address ↦ address = page) origin next supplyNext) :
    FileReady pml4 page vaddr entry next := by
  refine ⟨hfile.aligned, hfile.canonical, hload.kept page rfl page hfile.mapped,
    hfile.file.congr fun position hge hlt ↦ hload.bytes position ?_ ?_⟩
  · intro other hother hposition
    have haligned := hspaces.ready.region.pageAligned hother.free
    refine not_inPage_of_ne haligned hfile.aligned ?_
      (show InPage page position from ⟨hge, by omega⟩) hposition
    rintro rfl
    exact htaken (Or.inr hother.free)
  · intro table htable hposition
    have haligned := hload.spaces.pageAligned (Or.inl rfl) htable
    refine not_inPage_of_ne haligned hfile.aligned ?_
      (show InPage page position from ⟨hge, by omega⟩) hposition
    rintro rfl
    rcases hload.tables pml4 page (Or.inl rfl) htable with hold | havailable
    · exact hunused hold
    · exact htaken havailable

/-- The loop over the headers: the first iteration loads the segment, and the second leaves the
loop. -/
structure Iterations (pml4 page vaddr entry : Word) (origin : SpaceState) (next : Memory)
    (supplyNext : TableSupply) : Prop where
  first : leavingLoop (loadSegment pml4 page 64#64) 1 (origin.memory, origin.supply) =
    some (Sum.inr (next, supplyNext))
  second : leavingLoop (loadSegment pml4 page 64#64) 2 (origin.memory, origin.supply) =
    some (Sum.inl (true, next, supplyNext))
  file : FileReady pml4 page vaddr entry next
  target : ∃ target, pageMap next pml4 (virtualPage vaddr) = some target ∧
    FreePage origin.supply.pmm target
  tables : PoolTables pml4 origin next

/-- What the load needs: the file in a page of its own, a segment elsewhere, a page of the page
allocator, and tables of the pool. -/
structure LoadReady (pml4 page vaddr entry : Word) (origin : SpaceState) : Prop where
  spaces : Spaces (origin.Root pml4) origin.memory origin.supply
  file : FileReady pml4 page vaddr entry origin.memory
  taken : ¬ Available origin.supply page
  unused : ¬ TableOf origin.memory pml4 page
  vaddr_aligned : PageAligned vaddr
  vaddr_canonical : Canonical vaddr
  vaddr_ne : virtualPage page ≠ virtualPage vaddr
  free : ∃ free, FreePage origin.supply.pmm free
  pool : origin.supply.ptPoolUsed.toNat + 3 * 4096 ≤ 262144

theorem LoadReady.iterations (hready : LoadReady pml4 page vaddr entry origin) :
    ∃ next supplyNext, Iterations pml4 page vaddr entry origin next supplyNext := by
  obtain ⟨next, supplyNext, hfirst, hload, htarget, htables⟩ :=
    loadSegment_oneByte (origin.memory, origin.supply) hready.spaces hready.file
      hready.vaddr_aligned hready.vaddr_canonical hready.vaddr_ne hready.free hready.pool
  have hkept := hready.file.kept hready.spaces hready.taken hready.unused hload
  have hphnum := hkept.readField (by decide) (by decide) hkept.file.phnum
  have hone : leavingLoop (loadSegment pml4 page 64#64) 1 (origin.memory, origin.supply) =
    some (Sum.inr (next, supplyNext)) := hfirst
  refine ⟨next, supplyNext, hone, ?_, hkept, htarget, htables⟩
  rw [show 2 = 1 + 1 from rfl, leavingLoop, hone]
  simp only
  rw [loadSegment, show (56#64 : Word) = BitVec.ofNat 64 56 from rfl, hphnum]
  simp only [show ¬ 1 < (1#16 : BitVec 16).toNat from by decide, ↓reduceIte]

/-- The file loads: the loader returns its entry point, with the page of its segment bound to a page
of the page allocator, and takes its tables from the pool. -/
theorem oneSegment_loads (hready : LoadReady pml4 page vaddr entry origin) (name : Word)
    {size : Word32} (hsize : ehdrSize ≤ size) :
    ∃ next supplyNext target,
      elfLoadFromInitrd pml4 (some ⟨name, size, page⟩) (origin.memory, origin.supply) =
          some (some entry, next, supplyNext) ∧
        pageMap next pml4 (virtualPage vaddr) = some target ∧
          FreePage origin.supply.pmm target ∧ PoolTables pml4 origin next := by
  obtain ⟨next, supplyNext, -, hsecond, hkept, ⟨target, htarget, hfree⟩, htables⟩ :=
    hready.iterations
  refine ⟨next, supplyNext, target, ?_, htarget, hfree, htables⟩
  have hentry := hkept.readField (by decide) (by decide) hkept.file.entry
  have hsegments : loadSegments pml4 page 64#64 (origin.memory, origin.supply) =
      some (Sum.inl (true, next, supplyNext)) :=
    leavingLoop_of_left (show 2 ≤ 2 ^ 16 by decide) hsecond
  rw [(hready.file.accepts name hsize).elfLoad, hsegments, returnEntry,
    show (24#64 : Word) = BitVec.ofNat 64 24 from rfl, hentry, Option.map_some]

/-- The file stays clear of the kernel's addresses when its one page does. -/
theorem LoadReady.fileApart (hready : LoadReady pml4 page vaddr entry origin) (name : Word)
    (size : Word32) {kernel : Word → Prop}
    (hkernel : ∀ address, kernel address → virtualPage address ≠ virtualPage vaddr) :
    FileApart pml4 kernel (some ⟨name, size, page⟩) (origin.memory, origin.supply) := by
  intro f phoff hf hphoff i state phnum segment hloop hphnum hi hphdr
  cases hf
  have hread := hready.file.readField (by decide) (by decide) hready.file.file.phoff
  rw [show BitVec.ofNat 64 32 = (32#64 : Word) from rfl, hphoff, Option.some.injEq] at hread
  subst hread
  obtain ⟨next, supplyNext, hfirst, hsecond, hkept, -⟩ := hready.iterations
  obtain rfl | rfl | hleft : i = 0 ∨ i = 1 ∨ 2 ≤ i := by omega
  · rw [leavingLoop, Option.some.injEq, Sum.inr.injEq] at hloop
    subst hloop
    obtain ⟨offset, honly⟩ := hready.file.readPhdr
    rw [hphdr, Option.some.injEq, Option.some.injEq] at honly
    subst honly
    obtain ⟨hpages, hplace⟩ := pages_oneByte hready.vaddr_aligned offset
    have hself : SegmentApart (fun address ↦ address = page) (oneByte vaddr offset) :=
      segmentApart_oneByte hready.vaddr_aligned hready.vaddr_ne
    refine ⟨⟨fun p hp address haddress ↦ ?_, hself.fits⟩,
      (mapPage_oneByte hready.vaddr_aligned hready.spaces hready.free hready.pool).2⟩
    rw [hpages] at hp
    obtain rfl : p = 0 := by omega
    rw [hplace]
    exact hkernel address haddress
  · rw [hfirst, Option.some.injEq, Sum.inr.injEq] at hloop
    subst hloop
    have hone := hkept.readField (by decide) (by decide) hkept.file.phnum
    rw [show BitVec.ofNat 64 56 = (56#64 : Word) from rfl, hphnum, Option.some.injEq] at hone
    subst hone
    exact absurd hi (by decide)
  · rw [leavingLoop_of_left hleft hsecond, Option.some.injEq] at hloop
    cases hloop

end Load

/-! ### Files of this kind on a machine with 8 MB from 8 MB on -/

/-- The headers of such a file: the ELF header, then the one program header. -/
def elfImage (vaddr : List Byte) : List Byte :=
  [0x7F#8, 0x45#8, 0x4C#8, 0x46#8] ++ List.replicate 12 0#8 ++
    [2#8, 0#8, 0x3E#8, 0#8, 1#8, 0#8, 0#8, 0#8] ++ vaddr ++
    [0x40#8, 0#8, 0#8, 0#8, 0#8, 0#8, 0#8, 0#8] ++ List.replicate 12 0#8 ++
    [0x40#8, 0#8, 0x38#8, 0#8, 1#8, 0#8, 0#8, 0#8, 0#8, 0#8, 0#8, 0#8] ++
    [1#8, 0#8, 0#8, 0#8, 6#8, 0#8, 0#8, 0#8] ++ List.replicate 8 0#8 ++ vaddr ++ vaddr ++
    List.replicate 8 0#8 ++ [1#8, 0#8, 0#8, 0#8, 0#8, 0#8, 0#8, 0#8] ++
    [0#8, 0x10#8, 0#8, 0#8, 0#8, 0#8, 0#8, 0#8]

/-- Linked at 0x400000, as `sh.ld` has it. -/
def heapImage : List Byte :=
  elfImage [0#8, 0#8, 0x40#8, 0#8, 0#8, 0#8, 0#8, 0#8]

/-- Linked at 0x10000000. -/
def highImage : List Byte :=
  elfImage [0#8, 0#8, 0#8, 0x10#8, 0#8, 0#8, 0#8, 0#8]

theorem oneSegment_heapImage :
    OneSegment (placeBytes (fun _ ↦ 0#8) 0xC00000 heapImage) 0xC00000 0x400000#64 0x400000#64 := by
  constructor <;> decide +kernel

theorem oneSegment_highImage :
    OneSegment (placeBytes (fun _ ↦ 0#8) 0xC00000 highImage) 0xC00000 0x10000000#64
      0x10000000#64 := by
  constructor <;> decide +kernel

/-- The addresses of the kernel on that machine. -/
abbrev largeKernel : Word → Prop :=
  KernelAddress 0x200000 (pmmInit Pmm.bss 0x800000#64 0x800000#64)

/-- A state with a file in the page 0xC00000, which was taken from the page allocator. -/
structure FileState (image : List Byte) (s : SpaceState) : Prop where
  run : ∃ events,
    (keepingSystem BootLayout.low.pml4Table largeBoot largeKernel).Run events s
  invariant : SpaceInvariant BootLayout.low.pml4Table s
  held : (0xC00000#64 : Word) ∈ s.held
  mapped : pageMap s.memory BootLayout.low.pml4Table (virtualPage 0xC00000#64) =
    some 0xC00000#64
  image : ∀ position, 0xC00000 ≤ position → position < 0xC00000 + image.length →
    s.memory position = placeBytes (fun _ ↦ 0#8) 0xC00000 image position
  heap : ∃ phys, pageMap s.memory BootLayout.low.pml4Table (virtualPage 0x400000#64) = some phys ∧
    ¬ Available s.supply phys
  free : ∃ page, FreePage s.supply.pmm page
  pool : s.supply.ptPoolUsed.toNat + 3 * 4096 ≤ 262144

/-- Such a state is reached after `vmm_init`. -/
theorem exists_fileState {image : List Byte} (hlength : image.length ≤ 4096) :
    ∃ s, FileState image s := by
  obtain ⟨memory, supply, hinit, hready, hpages, hused, htotal, -⟩ := vmmInit_largeBoot
  have hcount : 1024 < supply.pmm.pmmTotalPages.toNat := lt_of_lt_of_eq (by decide) htotal.symm
  obtain ⟨pmm, halloc, hnextPages, htook⟩ := hpages.pmmAlloc hcount
  have hbase : supply.pmm.pmmBase = 0x800000#64 := by
    rw [hpages.base_eq]
    decide
  rw [hbase, show pageFrom 0x800000#64 1024 = 0xC00000#64 from by decide] at halloc htook
  have hsupply := htook.supply hready.spaces.ready
  have hstart : SpaceInvariant BootLayout.low.pml4Table ⟨memory, supply, [], []⟩ :=
    spaceInvariant_start hready.spaces
  have htaken : SpaceInvariant BootLayout.low.pml4Table
      ⟨memory, { supply with pmm := pmm }, [], [0xC00000#64]⟩ := hstart.alloc htook
  have hmem : (0xC00000#64 : Word) ∈ [(0xC00000#64 : Word)] := List.mem_singleton_self _
  have hagree : ∀ root table, SpaceState.Root BootLayout.low.pml4Table
      ⟨memory, { supply with pmm := pmm }, [], [0xC00000#64]⟩ root → TableOf memory root table →
        ∀ position, InPage table position →
          placeBytes memory 0xC00000 image position = memory position := by
    intro root table hroot htable position hposition
    have hne : table ≠ 0xC00000#64 := by
      rintro rfl
      exact htaken.held_unused _ hmem root hroot htable
    have houtside := not_inPage_of_ne (show PageAligned 0xC00000#64 from rfl)
      (htaken.spaces.pageAligned hroot htable) hne hposition
    refine if_neg fun hin ↦ houtside ⟨hin.1, ?_⟩
    exact lt_of_lt_of_le hin.2 (Nat.add_le_add_left hlength 0xC00000)
  obtain ⟨hwritten, hsame⟩ := htaken.write hagree
  have hpageMap : ∀ page, pageMap (placeBytes memory 0xC00000 image) BootLayout.low.pml4Table page =
      pageMap memory BootLayout.low.pml4Table page :=
    fun page ↦ hsame _ (Or.inl rfl) (indicesOf page) (le_refl 4)
  have hbooted : Booted BootLayout.low.pml4Table largeBoot ⟨memory, supply, [], []⟩ :=
    ⟨hinit, rfl, rfl⟩
  have halloced : (keepingSystem BootLayout.low.pml4Table largeBoot largeKernel).step
      ⟨memory, supply, [], []⟩ (.alloc 0xC00000#64)
      ⟨memory, { supply with pmm := pmm }, [], [0xC00000#64]⟩ :=
    ⟨⟨trivial, fun _ _ ↦ trivial⟩, SpaceStep.alloc halloc (by decide)⟩
  have hwrite : (keepingSystem BootLayout.low.pml4Table largeBoot largeKernel).step
      ⟨memory, { supply with pmm := pmm }, [], [0xC00000#64]⟩ .write
      ⟨placeBytes memory 0xC00000 image, { supply with pmm := pmm }, [], [0xC00000#64]⟩ :=
    ⟨⟨trivial, fun _ _ ↦ trivial⟩, SpaceStep.write hagree⟩
  have hrun := ((TransitionSystem.Run.start hbooted).step halloced).step hwrite
  have hself : pageMap memory BootLayout.low.pml4Table (virtualPage 0xC00000#64) =
      some 0xC00000#64 := by
    refine hready.window 0xC00000#64 rfl ?_ ?_ (by rw [InHeap]; decide)
    · rw [← hpages.base_eq, hbase]
      decide
    · rw [← hpages.base_eq, ← hpages.total_eq, hbase, htotal]
      decide
  obtain ⟨phys, hphys, -, hnot, -⟩ := hready.heap 0x400000#64 rfl ⟨by decide, by decide⟩
  have hmore : 1025 < pmm.pmmTotalPages.toNat := by
    rw [hnextPages.total_eq, ← hpages.total_eq]
    exact lt_of_lt_of_eq (by decide) htotal.symm
  obtain ⟨last, -, -, hlast⟩ := hnextPages.pmmAlloc hmore
  refine ⟨_, ⟨_, hrun⟩, hwritten, hmem, (hpageMap _).trans hself, ?_,
    ⟨phys, (hpageMap _).trans hphys, fun hpage ↦ hnot (hsupply.rest phys hpage).1⟩,
    ⟨_, hlast.free⟩, ?_⟩
  · exact fun position hge hlt ↦ (if_pos ⟨hge, hlt⟩).trans (if_pos ⟨hge, hlt⟩).symm
  · change supply.ptPoolUsed.toNat + 3 * 4096 ≤ 262144
    omega

/-- The load of such a file from such a state. -/
theorem FileState.loadReady {image : List Byte} {s : SpaceState} {vaddr entry : Word}
    (hstate : FileState image s) (hlength : 120 ≤ image.length)
    (hfile : OneSegment (placeBytes (fun _ ↦ 0#8) 0xC00000 image) 0xC00000 vaddr entry)
    (haligned : PageAligned vaddr) (hcanonical : Canonical vaddr)
    (hne : virtualPage 0xC00000#64 ≠ virtualPage vaddr) :
    LoadReady BootLayout.low.pml4Table 0xC00000#64 vaddr entry s := by
  refine ⟨hstate.invariant.spaces, ⟨rfl, by decide, hstate.mapped, ?_⟩,
    hstate.invariant.held_taken _ hstate.held,
    hstate.invariant.held_unused _ hstate.held _ (Or.inl rfl), haligned, hcanonical, hne,
    hstate.free, hstate.pool⟩
  refine hfile.congr fun position hge hlt ↦ hstate.image position hge ?_
  exact hlt.trans_le (Nat.add_le_add_left hlength 0xC00000)

/-- A file linked at the heap's first address: loading it changes what that address resolves to. -/
theorem heapSegment_not_kept : ∃ (s : SpaceState) (next : Memory) (supplyNext : TableSupply),
    (∃ events, (keepingSystem BootLayout.low.pml4Table largeBoot largeKernel).Run events s) ∧
      elfLoadFromInitrd BootLayout.low.pml4Table (some ⟨0#64, 120#32, 0xC00000#64⟩)
          (s.memory, s.supply) = some (some 0x400000#64, next, supplyNext) ∧
        vmmResolve BootLayout.low.pml4Table 0x400000#64 next ≠
          vmmResolve BootLayout.low.pml4Table 0x400000#64 s.memory := by
  obtain ⟨s, hstate⟩ := exists_fileState (show heapImage.length ≤ 4096 by decide)
  have hready := hstate.loadReady (by decide) oneSegment_heapImage rfl (Or.inl (by decide))
    (by decide)
  obtain ⟨next, supplyNext, target, hload, htarget, hfree, -⟩ :=
    oneSegment_loads hready 0#64 (show ehdrSize ≤ 120#32 by decide)
  obtain ⟨phys, hphys, hnot⟩ := hstate.heap
  refine ⟨s, next, supplyNext, hstate.run, hload, ?_⟩
  have haligned : PageAligned 0x400000#64 := rfl
  rw [vmmResolve_of_pageAligned haligned htarget, vmmResolve_of_pageAligned haligned hphys]
  rintro rfl
  exact hnot (Or.inr hfree)

/-- The kernel image that has all memory from 1 MB to 2 MB. -/
theorem kernelImage_low : KernelImage BootLayout.low 0x200000 := by
  constructor <;> decide

/-- A file linked at 0x10000000 keeps the kernel's addresses and the page tables in place. -/
theorem elfLoad_keeps_kernel_high : ∃ (s : SpaceState) (next : Memory) (supplyNext : TableSupply),
    elfLoadFromInitrd BootLayout.low.pml4Table (some ⟨0#64, 120#32, 0xC00000#64⟩)
        (s.memory, s.supply) = some (some 0x10000000#64, next, supplyNext) ∧
      KernelKept BootLayout.low.pml4Table largeKernel s.memory s.supply next supplyNext ∧
        ∃ held, TablesInPlace BootLayout.low.pml4Table ⟨next, supplyNext, s.processes, held⟩ := by
  obtain ⟨s, hstate⟩ := exists_fileState (show highImage.length ≤ 4096 by decide)
  have hready := hstate.loadReady (by decide) oneSegment_highImage rfl (Or.inl (by decide))
    (by decide)
  obtain ⟨next, supplyNext, -, hload, -⟩ :=
    oneSegment_loads hready 0#64 (show ehdrSize ≤ 120#32 by decide)
  have htotal : (pmmInit Pmm.bss 0x800000#64 0x800000#64).pmmTotalPages.toNat = 2048 :=
    toNat_totalPages_pmmInit Pmm.bss 0x800000#64 0x800000#64
  have hbase : (pmmInit Pmm.bss 0x800000#64 0x800000#64).pmmBase.toNat = 0x800000 := by decide
  have hbelow : ∀ address, largeKernel address → address.toNat < 0x1000000 := by
    intro address haddress
    have haddress : KernelAddress 0x200000 (pmmInit Pmm.bss 0x800000#64 0x800000#64) address :=
      haddress
    rw [KernelAddress, InHeap, hbase, htotal] at haddress
    omega
  have hne : ∀ address, largeKernel address →
      virtualPage address ≠ virtualPage 0x10000000#64 := by
    intro address haddress
    have hlt := hbelow address haddress
    have hhigh : (0x10000000#64 : Word).toNat = 0x10000000 := rfl
    exact virtualPage_ne (by omega) (by omega) (by omega)
  have hapart := hready.fileApart 0#64 120#32 hne
  have hbss : BssCleared BootLayout.low fun _ ↦ 0#8 := fun _ _ _ ↦ rfl
  obtain ⟨-, -, -, -, -, -, -, hclean⟩ := vmmInit_largeBoot
  obtain ⟨events, hrun⟩ := hstate.run
  rw [largeBoot] at hrun hclean
  obtain ⟨hkept, -, held, -, htables⟩ := elfLoad_keeps_kernel kernelImage_low hbss (by decide)
    (by decide) hclean (Or.inl (by decide)) hrun hapart hload
  exact ⟨s, next, supplyNext, hload, hkept, held, htables⟩

end Colix.Elf
