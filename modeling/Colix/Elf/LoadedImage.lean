import Colix.Elf.FailedLoad
import Colix.Elf.MappedPages
import Colix.Elf.OneSegment

/-!
# The image that a load leaves

For a file in order, a load that succeeds leaves every byte of every segment where the header says,
as long as no segment maps a page again that an earlier one has bytes in. `vmm_map` binds such a
page to a fresh one, and the loader copies the bytes of the later segment only: the earlier bytes
are gone, and their addresses hold what the fresh page held before the load. `imageLoaded_iff` has
both directions.
-/

set_option autoImplicit false
set_option relaxedAutoImplicit false

namespace Colix.Elf

open Foundation Mm Initrd Proc

/-! ### The file and its image -/

/-- The addresses of the file. -/
def InFile (f : InitrdFile) (address : Word) : Prop :=
  (address - f.data).toNat < f.size.toNat

/-- The file is in pages that the page allocator does not hand out, and that are no tables. -/
def FileSafe (pml4 : Word) (f : InitrdFile) (origin : SpaceState) : Prop :=
  ∀ address, InFile f address → ∃ page,
    pageMap origin.memory pml4 (virtualPage address) = some page ∧
      ¬ Available origin.supply page ∧ ¬ TableOf origin.memory pml4 page

/-- The byte of the image with a number: a byte of the file, or zero. -/
def segmentByte (pml4 : Word) (memory : Memory) (base : Word) (segment : Segment) (j : ℕ) :
    Option Byte :=
  if j < segment.filesz.toNat then
    readByte pml4 memory (base + segment.offset + BitVec.ofNat 64 j)
  else some 0#8

/-- A file in order: headers and contents lie in it, the segments do not wrap around and do not
overlap, and their pages hold no byte of the file. -/
structure ProperImage (pml4 : Word) (memory : Memory) (f : InitrdFile) (phoff : Word)
    (phnum : BitVec 16) : Prop where
  headers : phoff.toNat + phnum.toNat * 56 ≤ f.size.toNat
  content : ∀ i < phnum.toNat, ∀ segment, segmentAt pml4 memory f.data phoff i = some segment →
    segment.filesz = 0#64 ∨ segment.offset.toNat + segment.filesz.toNat ≤ f.size.toNat
  filesz_le : ∀ i < phnum.toNat, ∀ segment, segmentAt pml4 memory f.data phoff i = some segment →
    segment.filesz.toNat ≤ segment.memsz.toNat
  noWrap : ∀ i < phnum.toNat, ∀ segment, segmentAt pml4 memory f.data phoff i = some segment →
    segment.vaddr.toNat + segment.memsz.toNat ≤ 2 ^ 64
  apart : ∀ i < phnum.toNat, ∀ segment, segmentAt pml4 memory f.data phoff i = some segment →
    ∀ p < segment.pages, ∀ address, InFile f address →
      virtualPage address ≠ virtualPage (segment.page p)
  disjoint : ∀ i < phnum.toNat, ∀ k < phnum.toNat, i ≠ k → ∀ segment other,
    segmentAt pml4 memory f.data phoff i = some segment →
      segmentAt pml4 memory f.data phoff k = some other →
        ∀ j < segment.memsz.toNat, ∀ l < other.memsz.toNat,
          segment.vaddr + BitVec.ofNat 64 j ≠ other.vaddr + BitVec.ofNat 64 l

/-- A byte of a segment lies in a page that a later segment maps. -/
def Overlaid (pml4 : Word) (memory : Memory) (base phoff : Word) (count i : ℕ) (segment : Segment)
    (j : ℕ) : Prop :=
  ∃ k < count, i < k ∧ ∃ later, segmentAt pml4 memory base phoff k = some later ∧
    ∃ p < later.pages,
      virtualPage (segment.vaddr + BitVec.ofNat 64 j) = virtualPage (later.page p)

/-- The bytes of all segments are in place, and the entry point is the one of the header. -/
structure ImageLoaded (pml4 : Word) (memory : Memory) (f : InitrdFile) (phoff : Word)
    (phnum : BitVec 16) (entry : Word) (next : Memory) : Prop where
  bytes : ∀ i < phnum.toNat, ∀ segment, segmentAt pml4 memory f.data phoff i = some segment →
    ∀ j < segment.memsz.toNat, (segmentByte pml4 memory f.data segment j).isSome ∧
      readByte pml4 next (segment.vaddr + BitVec.ofNat 64 j) =
        segmentByte pml4 memory f.data segment j
  entry : readField 64 pml4 memory (f.data + 24#64) = some entry

/-! ### The file stays as it was -/

section File

variable {pml4 address : Word} {f : InitrdFile} {boot : Memory × TableSupply}
  {origin : SpaceState} {memory next : Memory} {supply : TableSupply} {w : ℕ}

/-- An address further on in the file. -/
theorem toNat_add_sub (address base : Word) {k : ℕ}
    (hfits : (address - base).toNat + k < 2 ^ 64) :
    (address + BitVec.ofNat 64 k - base).toNat = (address - base).toNat + k := by
  rw [show address + BitVec.ofNat 64 k - base = address - base + BitVec.ofNat 64 k by grind,
    BitVec.toNat_add, BitVec.toNat_ofNat, Nat.mod_eq_of_lt (show k < 2 ^ 64 by omega),
    Nat.mod_eq_of_lt hfits]

/-- A byte of the file during a load. -/
theorem Loading.readByte_file (hload : Loading pml4 boot (InFile f) origin memory supply)
    (hspaces : Spaces (origin.Root pml4) origin.memory origin.supply)
    (hsafe : FileSafe pml4 f origin) (haddress : InFile f address) :
    readByte pml4 memory address = readByte pml4 origin.memory address := by
  by_cases hcanonical : Canonical address
  · obtain ⟨page, hpage, htaken, hunused⟩ := hsafe address haddress
    have haligned := pageAligned_of_tableAt (hspaces.aligned pml4 (Or.inl rfl)) hpage
    have hoffset : InPage page (page.toNat + address.toNat % 4096) := by
      rw [InPage]
      omega
    rw [readByte_of_pageMap haligned hcanonical (hload.kept address haddress page hpage),
      readByte_of_pageMap haligned hcanonical hpage]
    refine congrArg some (hload.bytes _ (fun other hother ↦ ?_) (fun table htable ↦ ?_))
    · refine not_inPage_of_ne (hspaces.ready.region.pageAligned hother.free) haligned ?_ hoffset
      rintro rfl
      exact htaken (Or.inr hother.free)
    · refine not_inPage_of_ne (hload.spaces.pageAligned (Or.inl rfl) htable) haligned ?_ hoffset
      rintro rfl
      rcases hload.tables pml4 _ (Or.inl rfl) htable with hold | havailable
      · exact hunused hold
      · exact htaken havailable
  · rw [readByte_of_not_canonical hcanonical, readByte_of_not_canonical hcanonical]

/-- A field of the file during a load. -/
theorem Loading.readField_file (hload : Loading pml4 boot (InFile f) origin memory supply)
    (hspaces : Spaces (origin.Root pml4) origin.memory origin.supply)
    (hsafe : FileSafe pml4 f origin) (hfits : (address - f.data).toNat + w / 8 ≤ f.size.toNat) :
    readField w pml4 memory address = readField w pml4 origin.memory address := by
  have hsize := f.size.isLt
  rw [readField, readField, readNat_congr fun k hk ↦ hload.readByte_file hspaces hsafe ?_]
  rw [InFile, toNat_add_sub address f.data (by omega)]
  omega

/-- A program header of the file during a load. -/
theorem Loading.readPhdr_file (hload : Loading pml4 boot (InFile f) origin memory supply)
    (hspaces : Spaces (origin.Root pml4) origin.memory origin.supply)
    (hsafe : FileSafe pml4 f origin) (hfits : (address - f.data).toNat + 56 ≤ f.size.toNat) :
    readPhdr pml4 memory address = readPhdr pml4 origin.memory address := by
  have hsize := f.size.isLt
  have hfield : ∀ offset ≤ 48, readField 64 pml4 memory (address + BitVec.ofNat 64 offset) =
      readField 64 pml4 origin.memory (address + BitVec.ofNat 64 offset) := by
    intro offset hoffset
    refine hload.readField_file hspaces hsafe ?_
    rw [toNat_add_sub address f.data (by omega)]
    omega
  have htype : readField 32 pml4 memory address = readField 32 pml4 origin.memory address :=
    hload.readField_file hspaces hsafe (by omega)
  rw [readPhdr, readPhdr, htype, hfield 16 (by decide), hfield 40 (by decide),
    hfield 32 (by decide), hfield 8 (by decide)]

end File

/-! ### Filling a segment -/

section Fill

variable {pml4 base address : Word} {f : InitrdFile} {boot : Memory × TableSupply}
  {origin : SpaceState} {memory next : Memory} {supply : TableSupply} {segment : Segment}
  {mapped : VirtualPage → Prop} {j : ℕ}

theorem canonical_of_writeByte {value : Byte}
    (hwrite : writeByte pml4 memory address value = some next) : Canonical address := by
  by_contra hnot
  rw [writeByte, translate, if_neg hnot] at hwrite
  cases hwrite

/-- Both loops over the bytes of a segment write to its bytes. -/
theorem canonical_of_fill (hfill : fillSegment pml4 base segment memory = some next)
    (hj : j < max segment.filesz.toNat segment.memsz.toNat) :
    Canonical (segment.vaddr + BitVec.ofNat 64 j) := by
  rw [fillSegment, Option.bind_eq_some_iff] at hfill
  obtain ⟨copied, hcopy, hclear⟩ := hfill
  rcases Nat.lt_or_ge j segment.filesz.toNat with hlt | hge
  · obtain ⟨before, after, -, hbody⟩ := countedLoop_reaches hcopy hlt
    rw [copyByte, Option.bind_eq_some_iff] at hbody
    obtain ⟨value, -, hwrite⟩ := hbody
    exact canonical_of_writeByte hwrite
  · obtain ⟨past, rfl⟩ := Nat.exists_eq_add_of_le hge
    obtain ⟨before, after, -, hbody⟩ := countedLoop_reaches hclear
      (show past < segment.memsz.toNat - segment.filesz.toNat by omega)
    exact canonical_of_writeByte hbody

/-- A segment that does not wrap around, and that the processor can address, fits its pages. -/
theorem fits_of_canonical (hwrap : segment.vaddr.toNat + segment.memsz.toNat ≤ 2 ^ 64)
    (hcanonical : ∀ j < segment.memsz.toNat, Canonical (segment.vaddr + BitVec.ofNat 64 j)) :
    segment.vaddr.toNat % 4096 + segment.memsz.toNat ≤ segment.pages * 4096 := by
  have hstart : segment.pageStart.toNat = segment.vaddr.toNat / 4096 * 4096 :=
    toNat_pageOf segment.vaddr
  have hend : segment.pageEnd.toNat =
      (segment.vaddr.toNat + segment.memsz.toNat + 0xFFF) % 2 ^ 64 / 4096 * 4096 := by
    have hpage := toNat_pageOf (segment.vaddr + segment.memsz + 0xFFF#64)
    rw [BitVec.toNat_add, BitVec.toNat_add, BitVec.toNat_ofNat, Nat.mod_add_mod] at hpage
    exact hpage
  have hpages : segment.pages = (segment.pageEnd - segment.pageStart).toNat / 4096 := by
    rw [Segment.pages, BitVec.toNat_ushiftRight, Nat.shiftRight_eq_div_pow]
  rw [BitVec.toNat_sub, hstart, hend] at hpages
  have hvaddr := segment.vaddr.isLt
  by_cases hlow : segment.vaddr.toNat < 4096 ∧ 2 ^ 47 < segment.memsz.toNat
  · have hbyte := hcanonical (2 ^ 47) hlow.2
    rw [Canonical, BitVec.toNat_add, BitVec.toNat_ofNat] at hbyte
    omega
  · omega

/-- What loading a segment leaves: its bytes are in place, the bytes of other pages stayed, and the
rest of its own pages holds what was there before the load. -/
structure Filled (pml4 : Word) (boot : Memory × TableSupply) (f : InitrdFile)
    (origin : SpaceState) (mapped : VirtualPage → Prop) (segment : Segment) (start : Memory)
    (memory : Memory) (supply : TableSupply) : Prop where
  load : Loading pml4 boot (InFile f) origin memory supply
  pages : MappedPages pml4 origin (WithSegment mapped segment segment.pages) memory supply
  kept : ∀ address, mapped (virtualPage address) →
    (∀ p < segment.pages, virtualPage address ≠ virtualPage (segment.page p)) →
      readByte pml4 memory address = readByte pml4 start address
  stale : ∀ address, Canonical address →
    (∃ p < segment.pages, virtualPage address = virtualPage (segment.page p)) →
      (∀ j < segment.memsz.toNat, address ≠ segment.vaddr + BitVec.ofNat 64 j) →
        Stale pml4 origin memory address
  bytes : ∀ j < segment.memsz.toNat, Canonical (segment.vaddr + BitVec.ofNat 64 j) ∧
    (∃ p < segment.pages,
      virtualPage (segment.vaddr + BitVec.ofNat 64 j) = virtualPage (segment.page p)) ∧
      (segmentByte pml4 origin.memory f.data segment j).isSome ∧
        readByte pml4 memory (segment.vaddr + BitVec.ofNat 64 j) =
          segmentByte pml4 origin.memory f.data segment j

/-- The bytes of a segment are at different addresses. -/
theorem segment_byte_ne {k : ℕ} (hj : j < segment.memsz.toNat) (hk : k < segment.memsz.toNat)
    (hne : j ≠ k) : segment.vaddr + BitVec.ofNat 64 j ≠ segment.vaddr + BitVec.ofNat 64 k := by
  intro hsame
  have hmemsz := segment.memsz.isLt
  have hnumber := congrArg BitVec.toNat hsame
  rw [BitVec.toNat_add, BitVec.toNat_add, BitVec.toNat_ofNat, BitVec.toNat_ofNat] at hnumber
  omega

/-- The bytes to copy are bytes of the file. -/
theorem inFile_of_content (hcontent : segment.filesz = 0#64 ∨
      segment.offset.toNat + segment.filesz.toNat ≤ f.size.toNat)
    (hj : j < segment.filesz.toNat) :
    InFile f (f.data + segment.offset + BitVec.ofNat 64 j) := by
  have hsize := f.size.isLt
  have hnonempty : segment.filesz ≠ 0#64 := by
    intro hzero
    rw [hzero] at hj
    exact absurd hj (Nat.not_lt_zero j)
  have hfits := hcontent.resolve_left hnonempty
  have hoffset : (f.data + segment.offset - f.data).toNat = segment.offset.toNat :=
    congrArg BitVec.toNat (by grind)
  rw [InFile, toNat_add_sub _ _ (by omega)]
  omega

/-- The two loops over the bytes of a segment put the bytes of the image there. -/
theorem Mapping.written {start : Memory}
    (hmapping : Mapping pml4 boot (InFile f) origin mapped segment start segment.pages memory
      supply)
    (hspaces : Spaces (origin.Root pml4) origin.memory origin.supply)
    (hsafe : FileSafe pml4 f origin)
    (hcontent : segment.filesz = 0#64 ∨
      segment.offset.toNat + segment.filesz.toNat ≤ f.size.toNat)
    (hfilesz : segment.filesz.toNat ≤ segment.memsz.toNat)
    (hinside : ∀ j < segment.memsz.toNat, ∃ p < segment.pages,
      virtualPage (segment.vaddr + BitVec.ofNat 64 j) = virtualPage (segment.page p))
    (hfill : fillSegment pml4 f.data segment memory = some next) :
    Written pml4 boot (InFile f) origin (WithSegment mapped segment segment.pages) memory
      (fun j ↦ segment.vaddr + BitVec.ofNat 64 j)
        (segmentByte pml4 origin.memory f.data segment) segment.memsz.toNat next supply := by
  have hready := hspaces.ready
  rw [fillSegment, Option.bind_eq_some_iff] at hfill
  obtain ⟨copied, hcopy, hclear⟩ := hfill
  have hcopied : Written pml4 boot (InFile f) origin (WithSegment mapped segment segment.pages)
      memory (fun j ↦ segment.vaddr + BitVec.ofNat 64 j)
        (segmentByte pml4 origin.memory f.data segment) segment.filesz.toNat copied supply := by
    refine written_of_loop hmapping.pages hmapping.load hready ?_ ?_ ?_ hcopy
    · intro j hj before next hload hbody
      rw [copyByte, Option.bind_eq_some_iff] at hbody
      obtain ⟨value, hread, hwrite⟩ := hbody
      rw [hload.readByte_file hspaces hsafe (inFile_of_content hcontent hj)] at hread
      exact ⟨value, by rw [segmentByte, if_pos hj, hread], hwrite⟩
    · exact fun j hj ↦ hinside j (by omega)
    · exact fun j hj k hk ↦ segment_byte_ne (by omega) (by omega) (by omega)
  have hcleared : Written pml4 boot (InFile f) origin (WithSegment mapped segment segment.pages)
      copied (fun j ↦ segment.vaddr + BitVec.ofNat 64 (segment.filesz.toNat + j))
        (fun j ↦ segmentByte pml4 origin.memory f.data segment (segment.filesz.toNat + j))
          (segment.memsz.toNat - segment.filesz.toNat) next supply := by
    refine written_of_loop hcopied.pages hcopied.load hready ?_ ?_ ?_ hclear
    · exact fun j hj before next _ hbody ↦ ⟨0#8, by rw [segmentByte, if_neg (by omega)], hbody⟩
    · exact fun j hj ↦ hinside _ (by omega)
    · exact fun j hj k hk ↦ segment_byte_ne (by omega) (by omega) (by omega)
  have hboth := hcopied.append hcleared
    (fun j hj ↦ by
      obtain ⟨p, hp, hpage⟩ := hinside j (by omega)
      exact Or.inr ⟨p, hp, hpage⟩)
    fun j hj k hk ↦ segment_byte_ne (by omega) (by omega) (by omega)
  rwa [Nat.add_sub_cancel' hfilesz] at hboth

/-- Copying and clearing the bytes of a segment whose pages were just mapped. -/
theorem Mapping.fill {start : Memory}
    (hmapping : Mapping pml4 boot (InFile f) origin mapped segment start segment.pages memory
      supply)
    (hspaces : Spaces (origin.Root pml4) origin.memory origin.supply)
    (hsafe : FileSafe pml4 f origin)
    (hcontent : segment.filesz = 0#64 ∨
      segment.offset.toNat + segment.filesz.toNat ≤ f.size.toNat)
    (hfilesz : segment.filesz.toNat ≤ segment.memsz.toNat)
    (hwrap : segment.vaddr.toNat + segment.memsz.toNat ≤ 2 ^ 64)
    (hfill : fillSegment pml4 f.data segment memory = some next) :
    Filled pml4 boot f origin mapped segment start next supply := by
  have hcanonical : ∀ j < segment.memsz.toNat, Canonical (segment.vaddr + BitVec.ofNat 64 j) :=
    fun j hj ↦ canonical_of_fill hfill (lt_max_of_lt_right hj)
  have hinside : ∀ j < segment.memsz.toNat, ∃ p < segment.pages,
      virtualPage (segment.vaddr + BitVec.ofNat 64 j) = virtualPage (segment.page p) := by
    have hnowhere : SegmentApart (fun _ ↦ False) segment := by
      refine ⟨fun _ _ _ ↦ False.elim, ?_⟩
      rw [max_eq_right hfilesz]
      exact fits_of_canonical hwrap hcanonical
    exact fun j hj ↦ hnowhere.virtualPage_eq (lt_max_of_lt_right hj)
  have hwritten := hmapping.written hspaces hsafe hcontent hfilesz hinside hfill
  refine ⟨hwritten.load, hwritten.pages, fun address haddress hne ↦ ?_, ?_, fun j hj ↦
    ⟨hcanonical j hj, hinside j hj, hwritten.written j hj⟩⟩
  · rw [hwritten.kept address (Or.inl haddress) ?_]
    · exact hmapping.kept address haddress hne
    · rintro j hj rfl
      obtain ⟨p, hp, hpage⟩ := hinside j hj
      exact hne p hp hpage
  · rintro address haddress ⟨p, hp, hpage⟩ hne
    obtain ⟨page, hfree, hheld⟩ := hmapping.stale address haddress ⟨p, hp, hpage⟩
    exact ⟨page, hfree, (hwritten.kept address (Or.inr ⟨p, hp, hpage⟩) hne).trans hheld⟩

end Fill

/-! ### The loop over the headers -/

section Loop

variable {pml4 base phoff : Word} {f : InitrdFile} {phnum : BitVec 16} {boot : Memory × TableSupply}
  {origin : SpaceState} {memory : Memory} {supply : TableSupply} {segment : Segment} {i k j : ℕ}
  {state : Memory × TableSupply}

/-- A page of one of the first segments. -/
def PageLoaded (pml4 : Word) (memory : Memory) (base phoff : Word) (count : ℕ)
    (page : VirtualPage) : Prop :=
  ∃ k < count, ∃ segment, segmentAt pml4 memory base phoff k = some segment ∧
    ∃ p < segment.pages, page = virtualPage (segment.page p)

/-- What holds after the first headers: the bytes of their segments are in place, but for those
whose page was mapped again. -/
structure Placed (pml4 : Word) (boot : Memory × TableSupply) (f : InitrdFile) (phoff : Word)
    (origin : SpaceState) (count : ℕ) (memory : Memory) (supply : TableSupply) : Prop where
  load : Loading pml4 boot (InFile f) origin memory supply
  pages : MappedPages pml4 origin (PageLoaded pml4 origin.memory f.data phoff count) memory supply
  bytes : ∀ k < count, ∀ segment, segmentAt pml4 origin.memory f.data phoff k = some segment →
    ∀ j < segment.memsz.toNat, Canonical (segment.vaddr + BitVec.ofNat 64 j) ∧
      PageLoaded pml4 origin.memory f.data phoff count
        (virtualPage (segment.vaddr + BitVec.ofNat 64 j)) ∧
        (segmentByte pml4 origin.memory f.data segment j).isSome
  placed : ∀ k < count, ∀ segment, segmentAt pml4 origin.memory f.data phoff k = some segment →
    ∀ j < segment.memsz.toNat, ¬ Overlaid pml4 origin.memory f.data phoff count k segment j →
      readByte pml4 memory (segment.vaddr + BitVec.ofNat 64 j) =
        segmentByte pml4 origin.memory f.data segment j
  stale : ∀ k < count, ∀ segment, segmentAt pml4 origin.memory f.data phoff k = some segment →
    ∀ j < segment.memsz.toNat, Overlaid pml4 origin.memory f.data phoff count k segment j →
      Stale pml4 origin memory (segment.vaddr + BitVec.ofNat 64 j)

theorem Overlaid.succ (hoverlaid : Overlaid pml4 memory base phoff i k segment j) :
    Overlaid pml4 memory base phoff (i + 1) k segment j := by
  obtain ⟨later, hlater, hrest⟩ := hoverlaid
  exact ⟨later, Nat.lt_succ_of_lt hlater, hrest⟩

/-- A page of the first segments, or of the one that comes next. -/
theorem pageLoaded_succ {page : VirtualPage}
    (hsegment : segmentAt pml4 memory base phoff i = some segment) :
    PageLoaded pml4 memory base phoff (i + 1) page ↔
      WithSegment (PageLoaded pml4 memory base phoff i) segment segment.pages page := by
  constructor
  · rintro ⟨k, hk, other, hother, hpage⟩
    rcases Nat.lt_succ_iff_lt_or_eq.mp hk with hlt | rfl
    · exact Or.inl ⟨k, hlt, other, hother, hpage⟩
    · rw [hsegment, Option.some.injEq] at hother
      subst hother
      exact Or.inr hpage
  · rintro (⟨k, hk, other, hother, hpage⟩ | hpage)
    · exact ⟨k, Nat.lt_succ_of_lt hk, other, hother, hpage⟩
    · exact ⟨i, Nat.lt_succ_self i, segment, hsegment, hpage⟩

/-- A byte is overlaid by the segments that came, or by the one that comes next. -/
theorem overlaid_succ {next : Segment} (hnext : segmentAt pml4 memory base phoff i = some next)
    (hk : k < i) : Overlaid pml4 memory base phoff (i + 1) k segment j ↔
      Overlaid pml4 memory base phoff i k segment j ∨ ∃ p < next.pages,
        virtualPage (segment.vaddr + BitVec.ofNat 64 j) = virtualPage (next.page p) := by
  constructor
  · rintro ⟨l, hl, hkl, later, hlater, hpage⟩
    rcases Nat.lt_succ_iff_lt_or_eq.mp hl with hlt | rfl
    · exact Or.inl ⟨l, hlt, hkl, later, hlater, hpage⟩
    · rw [hnext, Option.some.injEq] at hlater
      subst hlater
      exact Or.inr hpage
  · rintro (hbefore | hpage)
    · exact hbefore.succ
    · exact ⟨i, Nat.lt_succ_self i, hk, next, hnext, hpage⟩

/-- A header that is no segment changes nothing. -/
theorem Placed.skip (hplaced : Placed pml4 boot f phoff origin i memory supply)
    (hnone : segmentAt pml4 origin.memory f.data phoff i = none) :
    Placed pml4 boot f phoff origin (i + 1) memory supply := by
  have hearlier : ∀ k < i + 1, ∀ segment,
      segmentAt pml4 origin.memory f.data phoff k = some segment → k < i := by
    intro k hk segment hsegment
    rcases Nat.lt_succ_iff_lt_or_eq.mp hk with hlt | rfl
    · exact hlt
    · rw [hnone] at hsegment
      cases hsegment
  refine ⟨hplaced.load, hplaced.pages.congr ?_, fun k hk segment hsegment j hj ↦ ?_,
    fun k hk segment hsegment j hj hnot ↦ ?_, fun k hk segment hsegment j hj hoverlaid ↦ ?_⟩
  · rintro page ⟨k, hk, segment, hsegment, hpage⟩
    exact ⟨k, hearlier k hk segment hsegment, segment, hsegment, hpage⟩
  · obtain ⟨hcanonical, ⟨l, hl, hpage⟩, hsome⟩ :=
      hplaced.bytes k (hearlier k hk segment hsegment) segment hsegment j hj
    exact ⟨hcanonical, ⟨l, Nat.lt_succ_of_lt hl, hpage⟩, hsome⟩
  · exact hplaced.placed k (hearlier k hk segment hsegment) segment hsegment j hj
      fun hoverlaid ↦ hnot hoverlaid.succ
  · obtain ⟨l, hl, hkl, later, hlater, hpage⟩ := hoverlaid
    exact hplaced.stale k (hearlier k hk segment hsegment) segment hsegment j hj
      ⟨l, hearlier l hl later hlater, hkl, later, hlater, hpage⟩

/-- A segment joins those that are loaded. -/
theorem Placed.add (hplaced : Placed pml4 boot f phoff origin i state.1 state.2)
    (hproper : ProperImage pml4 origin.memory f phoff phnum) (hi : i < phnum.toNat)
    (hsegment : segmentAt pml4 origin.memory f.data phoff i = some segment)
    (hfilled : Filled pml4 boot f origin (PageLoaded pml4 origin.memory f.data phoff i) segment
      state.1 memory supply) :
    Placed pml4 boot f phoff origin (i + 1) memory supply := by
  -- the segment with a number is an earlier one, or this one
  have hwhich : ∀ k < i + 1, ∀ other, segmentAt pml4 origin.memory f.data phoff k = some other →
      k < i ∨ (k = i ∧ other = segment) := by
    intro k hk other hother
    rcases Nat.lt_succ_iff_lt_or_eq.mp hk with hlt | rfl
    · exact Or.inl hlt
    · rw [hsegment, Option.some.injEq] at hother
      exact Or.inr ⟨rfl, hother.symm⟩
  have hlast : ∀ j, ¬ Overlaid pml4 origin.memory f.data phoff (i + 1) i segment j := by
    rintro j ⟨l, hl, hil, -⟩
    omega
  refine ⟨hfilled.load, hfilled.pages.congr fun page ↦ (pageLoaded_succ hsegment).mp,
    fun k hk other hother j hj ↦ ?_, fun k hk other hother j hj hnot ↦ ?_,
    fun k hk other hother j hj hoverlaid ↦ ?_⟩
  · rcases hwhich k hk other hother with hlt | ⟨rfl, rfl⟩
    · obtain ⟨hcanonical, hpage, hsome⟩ := hplaced.bytes k hlt other hother j hj
      exact ⟨hcanonical, (pageLoaded_succ hsegment).mpr (Or.inl hpage), hsome⟩
    · obtain ⟨hcanonical, hpage, hsome, -⟩ := hfilled.bytes j hj
      exact ⟨hcanonical, (pageLoaded_succ hsegment).mpr (Or.inr hpage), hsome⟩
  · rcases hwhich k hk other hother with hlt | ⟨rfl, rfl⟩
    · have hpage := (hplaced.bytes k hlt other hother j hj).2.1
      rw [overlaid_succ hsegment hlt, not_or] at hnot
      rw [hfilled.kept _ hpage fun p hp hsame ↦ hnot.2 ⟨p, hp, hsame⟩]
      exact hplaced.placed k hlt other hother j hj hnot.1
    · exact (hfilled.bytes j hj).2.2.2
  · rcases hwhich k hk other hother with hlt | ⟨rfl, rfl⟩
    · obtain ⟨hcanonical, hpage, -⟩ := hplaced.bytes k hlt other hother j hj
      by_cases hagain : ∃ p < segment.pages,
          virtualPage (other.vaddr + BitVec.ofNat 64 j) = virtualPage (segment.page p)
      · exact hfilled.stale _ hcanonical hagain fun l hl ↦
          hproper.disjoint k (hlt.trans hi) i hi hlt.ne other segment hother hsegment j hj l hl
      · rw [overlaid_succ hsegment hlt] at hoverlaid
        obtain ⟨page, hfree, hheld⟩ :=
          hplaced.stale k hlt other hother j hj (hoverlaid.resolve_right hagain)
        exact ⟨page, hfree, (hfilled.kept _ hpage fun p hp hsame ↦
          hagain ⟨p, hp, hsame⟩).trans hheld⟩
    · exact absurd hoverlaid (hlast j)

/-- A field of the header, during a load. -/
theorem Loading.header_file (hload : Loading pml4 boot (InFile f) origin memory supply)
    (hspaces : Spaces (origin.Root pml4) origin.memory origin.supply)
    (hsafe : FileSafe pml4 f origin) (hsize : 64 ≤ f.size.toNat) {w offset : ℕ}
    (hoffset : offset + w / 8 ≤ 64) :
    readField w pml4 memory (f.data + BitVec.ofNat 64 offset) =
      readField w pml4 origin.memory (f.data + BitVec.ofNat 64 offset) := by
  refine hload.readField_file hspaces hsafe ?_
  rw [show f.data + BitVec.ofNat 64 offset - f.data = BitVec.ofNat 64 offset by grind,
    BitVec.toNat_ofNat]
  omega

/-- An iteration of the loop over the headers. -/
theorem Placed.loadSegment (hplaced : Placed pml4 boot f phoff origin i state.1 state.2)
    (hspaces : Spaces (origin.Root pml4) origin.memory origin.supply)
    (hsafe : FileSafe pml4 f origin) (hsize : 64 ≤ f.size.toNat)
    (hphnum : readField 16 pml4 origin.memory (f.data + 56#64) = some phnum)
    (hproper : ProperImage pml4 origin.memory f phoff phnum)
    (hclean : ∀ segment, i < phnum.toNat →
      readPhdr pml4 state.1 (f.data + phoff + BitVec.ofNat 64 i * 56#64) = some (some segment) →
        CleanSegment pml4 segment state)
    {outcome : (Bool × Memory × TableSupply) ⊕ (Memory × TableSupply)}
    (hbody : loadSegment pml4 f.data phoff i state = some outcome) :
    Sum.elim
      (fun exit ↦ exit.1 = true → phnum.toNat ≤ i ∧
        Placed pml4 boot f phoff origin i exit.2.1 exit.2.2)
      (fun next ↦ i < phnum.toNat ∧ Placed pml4 boot f phoff origin (i + 1) next.1 next.2)
        outcome := by
  have hload := hplaced.load
  have hsizeLt := f.size.isLt
  have hread : readField 16 pml4 state.1 (f.data + 56#64) = some phnum :=
    (hload.header_file hspaces hsafe hsize (by decide)).trans hphnum
  have hheader : i < phnum.toNat →
      readPhdr pml4 state.1 (f.data + phoff + BitVec.ofNat 64 i * 56#64) =
        readPhdr pml4 origin.memory (f.data + phoff + BitVec.ofNat 64 i * 56#64) := by
    intro hi
    have hheaders := hproper.headers
    refine hload.readPhdr_file hspaces hsafe ?_
    rw [show f.data + phoff + BitVec.ofNat 64 i * 56#64 - f.data =
      phoff + BitVec.ofNat 64 i * 56#64 by grind, BitVec.toNat_add, BitVec.toNat_mul,
      BitVec.toNat_ofNat, BitVec.toNat_ofNat]
    omega
  cases loadSegment_cases hbody with
  | done hsame hi =>
    obtain rfl := Option.some.inj (hread.symm.trans hsame)
    exact fun _ ↦ ⟨Nat.not_lt.mp hi, hplaced⟩
  | skipped hsame hi hnone =>
    obtain rfl := Option.some.inj (hread.symm.trans hsame)
    rw [hheader hi] at hnone
    refine ⟨hi, hplaced.skip ?_⟩
    rw [segmentAt, hnone]
    rfl
  | exhausted => exact fun hfalse : false = true ↦ Bool.noConfusion hfalse
  | loaded hsame hi hphdr hmap hfill =>
    obtain rfl := Option.some.inj (hread.symm.trans hsame)
    have hcleanSegment := hclean _ hi hphdr
    rw [hheader hi] at hphdr
    have hsegment := segmentAt_eq_some.mpr hphdr
    have hmapping := hplaced.pages.mapPages hload hspaces.ready
      (hproper.apart i hi _ hsegment) hcleanSegment hmap
    exact ⟨hi, hplaced.add hproper hi hsegment (hmapping.fill hspaces hsafe
      (hproper.content i hi _ hsegment) (hproper.filesz_le i hi _ hsegment)
        (hproper.noWrap i hi _ hsegment) hfill)⟩

/-- Before the first header nothing is loaded. -/
theorem placed_start (hspaces : Spaces (origin.Root pml4) origin.memory origin.supply) :
    Placed pml4 boot f phoff origin 0 origin.memory origin.supply := by
  have hnone : ∀ page, ¬ PageLoaded pml4 origin.memory f.data phoff 0 page := by
    rintro page ⟨k, hk, -⟩
    exact absurd hk (Nat.not_lt_zero k)
  exact ⟨loading_start hspaces, ⟨fun page hpage ↦ absurd hpage (hnone page),
    fun page _ _ hpage ↦ absurd hpage (hnone page)⟩, fun k hk ↦ absurd hk (Nat.not_lt_zero k),
    fun k hk ↦ absurd hk (Nat.not_lt_zero k), fun k hk ↦ absurd hk (Nat.not_lt_zero k)⟩

/-- The loop over the headers, when it ends. -/
theorem placed_of_loop (boot : Memory × TableSupply)
    (hspaces : Spaces (origin.Root pml4) origin.memory origin.supply)
    (hsafe : FileSafe pml4 f origin) (hsize : 64 ≤ f.size.toNat)
    (hphnum : readField 16 pml4 origin.memory (f.data + 56#64) = some phnum)
    (hproper : ProperImage pml4 origin.memory f phoff phnum)
    (hclean : EverySegment pml4 f.data phoff (origin.memory, origin.supply) (CleanSegment pml4))
    {count : ℕ} {next : Memory × TableSupply}
    (hloop : leavingLoop (Elf.loadSegment pml4 f.data phoff) count (origin.memory, origin.supply) =
      some (Sum.inl (true, next))) :
    Placed pml4 boot f phoff origin phnum.toNat next.1 next.2 := by
  have hstart : Placed pml4 boot f phoff origin 0 origin.memory origin.supply :=
    placed_start hspaces
  have hleft : Sum.elim
      (fun exit : Bool × Memory × TableSupply ↦ exit.1 = true →
        Placed pml4 boot f phoff origin phnum.toNat exit.2.1 exit.2.2)
      (fun next : Memory × TableSupply ↦ count ≤ phnum.toNat ∧
        Placed pml4 boot f phoff origin count next.1 next.2) (Sum.inl (true, next)) := by
    refine leavingLoop_rule (motive := fun i (state : Memory × TableSupply) ↦
      i ≤ phnum.toNat ∧ Placed pml4 boot f phoff origin i state.1 state.2) ?_ ?_ hloop
    · exact ⟨Nat.zero_le _, hstart⟩
    · rintro i - state outcome hsofar ⟨hle, hplaced⟩ hbody
      have hread : readField 16 pml4 state.1 (f.data + 56#64) = some phnum :=
        (hplaced.load.header_file hspaces hsafe hsize (by decide)).trans hphnum
      have hnext := hplaced.loadSegment hspaces hsafe hsize hphnum hproper
        (fun segment hi hphdr ↦ hclean i state phnum segment hsofar hread hi hphdr) hbody
      rcases outcome with exit | after
      · intro hdone
        obtain ⟨hge, hlast⟩ := hnext hdone
        rwa [show phnum.toNat = i by omega]
      · exact ⟨hnext.1, hnext.2⟩
  exact hleft rfl

end Loop

/-! ### The image -/

section Image

variable {pml4 entry : Word} {f : InitrdFile} {phoff : Word} {phnum : BitVec 16}
  {origin : SpaceState} {next : Memory} {supplyNext : TableSupply}

/-- A load that succeeds: the bytes that no later segment overlays are in place, and the others are
what a free page held. -/
theorem placed_of_elfLoad (hspaces : Spaces (origin.Root pml4) origin.memory origin.supply)
    (hsafe : FileSafe pml4 f origin)
    (hphoff : readField 64 pml4 origin.memory (f.data + 32#64) = some phoff)
    (hphnum : readField 16 pml4 origin.memory (f.data + 56#64) = some phnum)
    (hproper : ProperImage pml4 origin.memory f phoff phnum)
    (hclean : EverySegment pml4 f.data phoff (origin.memory, origin.supply) (CleanSegment pml4))
    (hload : elfLoadFromInitrd pml4 (some f) (origin.memory, origin.supply) =
      some (some entry, next, supplyNext)) :
    readField 64 pml4 origin.memory (f.data + 24#64) = some entry ∧
      Placed pml4 (origin.memory, origin.supply) f phoff origin phnum.toNat next supplyNext := by
  rcases elfLoad_inv hload with ⟨-, hnone, -⟩ | ⟨file, place, hfile, haccepts, hreturn⟩
  · cases hnone
  obtain rfl := Option.some.inj hfile
  have hplace : place = phoff := Option.some.inj (haccepts.phoff.symm.trans hphoff)
  subst hplace
  have hsize : 64 ≤ f.size.toNat := Nat.not_lt.mp fun hlt ↦ haccepts.size (BitVec.lt_def.mpr hlt)
  rcases returnEntry_inv hreturn with ⟨hnone, -⟩ | ⟨found, hfound, hleft, hentry⟩
  · cases hnone
  obtain rfl := Option.some.inj hfound
  have hplaced := placed_of_loop (origin.memory, origin.supply) hspaces hsafe hsize hphnum hproper
    hclean hleft
  refine ⟨?_, hplaced⟩
  rw [← hplaced.load.header_file hspaces hsafe hsize (by decide)]
  exact hentry

/-- A load of a file in order that succeeds leaves the image in place when the file is in pages of
its own and no byte of a segment lies in a page that a later segment maps. In such a file a byte
that does is right only when some free page held it at that place already. Assumes: the directories
that the load makes come zeroed. -/
theorem imageLoaded_iff (hspaces : Spaces (origin.Root pml4) origin.memory origin.supply)
    (hphoff : readField 64 pml4 origin.memory (f.data + 32#64) = some phoff)
    (hphnum : readField 16 pml4 origin.memory (f.data + 56#64) = some phnum)
    (hproper : ProperImage pml4 origin.memory f phoff phnum)
    (hclean : EverySegment pml4 f.data phoff (origin.memory, origin.supply) (CleanSegment pml4))
    (hload : elfLoadFromInitrd pml4 (some f) (origin.memory, origin.supply) =
      some (some entry, next, supplyNext)) :
    (FileSafe pml4 f origin ∧ (∀ i < phnum.toNat, ∀ segment,
      segmentAt pml4 origin.memory f.data phoff i = some segment →
        ∀ j < segment.memsz.toNat,
          ¬ Overlaid pml4 origin.memory f.data phoff phnum.toNat i segment j) →
      ImageLoaded pml4 origin.memory f phoff phnum entry next) ∧
      (FileSafe pml4 f origin → ImageLoaded pml4 origin.memory f phoff phnum entry next →
        ∀ i < phnum.toNat, ∀ segment,
          segmentAt pml4 origin.memory f.data phoff i = some segment →
            ∀ j < segment.memsz.toNat,
              Overlaid pml4 origin.memory f.data phoff phnum.toNat i segment j →
                ∃ page, FreePage origin.supply.pmm page ∧
                  segmentByte pml4 origin.memory f.data segment j =
                    some (origin.memory (page.toNat +
                      (segment.vaddr + BitVec.ofNat 64 j).toNat % 4096))) := by
  constructor
  · rintro ⟨hsafe, hnone⟩
    obtain ⟨hentry, hplaced⟩ :=
      placed_of_elfLoad hspaces hsafe hphoff hphnum hproper hclean hload
    refine ⟨fun i hi segment hsegment j hj ↦ ?_, hentry⟩
    exact ⟨(hplaced.bytes i hi segment hsegment j hj).2.2,
      hplaced.placed i hi segment hsegment j hj (hnone i hi segment hsegment j hj)⟩
  · intro hsafe hloaded i hi segment hsegment j hj hoverlaid
    obtain ⟨-, hplaced⟩ := placed_of_elfLoad hspaces hsafe hphoff hphnum hproper hclean hload
    obtain ⟨page, hfree, hheld⟩ := hplaced.stale i hi segment hsegment j hj hoverlaid
    exact ⟨page, hfree, ((hloaded.bytes i hi segment hsegment j hj).2.symm.trans hheld)⟩

end Image

/-! ### One segment, and two in one page -/

section OneSegment

variable {page vaddr entry pml4 : Word} {origin : SpaceState} {address : Word}

/-- The addresses of a file that ends with its headers are in its page. -/
theorem virtualPage_of_inFile (haligned : PageAligned page) (name : Word)
    (haddress : InFile ⟨name, 120#32, page⟩ address) : virtualPage address = virtualPage page := by
  rw [PageAligned] at haligned
  change (address - page).toNat < 120 at haddress
  have hpage := page.isLt
  have hnumber : address.toNat = page.toNat + (address - page).toNat := by
    have hsum : (page + (address - page)).toNat = address.toNat := congrArg BitVec.toNat (by grind)
    rw [BitVec.toNat_add] at hsum
    omega
  apply BitVec.eq_of_toNat_eq
  rw [toNat_virtualPage, toNat_virtualPage]
  omega

/-- The file of one segment is in pages of its own. -/
theorem LoadReady.fileSafe (hready : LoadReady pml4 page vaddr entry origin) (name : Word) :
    FileSafe pml4 ⟨name, 120#32, page⟩ origin := by
  intro address haddress
  rw [virtualPage_of_inFile hready.file.aligned name haddress]
  exact ⟨page, hready.file.mapped, hready.taken, hready.unused⟩

/-- The one header of the file is that of its segment. -/
theorem LoadReady.segmentAt (hready : LoadReady pml4 page vaddr entry origin) :
    ∃ offset, Elf.segmentAt pml4 origin.memory page 64#64 0 = some (oneByte vaddr offset) := by
  obtain ⟨offset, hphdr⟩ := hready.file.readPhdr
  exact ⟨offset, segmentAt_eq_some.mpr hphdr⟩

/-- The file of one segment is in order. -/
theorem LoadReady.properImage (hready : LoadReady pml4 page vaddr entry origin) (name : Word)
    (hvaddr : vaddr.toNat + 1 ≤ 2 ^ 64) :
    ProperImage pml4 origin.memory ⟨name, 120#32, page⟩ 64#64 1#16 := by
  obtain ⟨offset, hone⟩ := hready.segmentAt
  obtain ⟨hpages, hplace⟩ := pages_oneByte hready.vaddr_aligned offset
  have hfirst : ∀ i < (1#16 : BitVec 16).toNat, ∀ segment,
      Elf.segmentAt pml4 origin.memory page 64#64 i = some segment →
        i = 0 ∧ segment = oneByte vaddr offset := by
    intro i hi segment hsegment
    obtain rfl : i = 0 := Nat.lt_one_iff.mp hi
    rw [hone, Option.some.injEq] at hsegment
    exact ⟨rfl, hsegment.symm⟩
  refine ⟨le_refl 120, fun i hi segment hsegment ↦ ?_, fun i hi segment hsegment ↦ ?_,
    fun i hi segment hsegment ↦ ?_, fun i hi segment hsegment p hp address haddress ↦ ?_,
    fun i hi k hk hne ↦ ?_⟩
  · obtain ⟨-, rfl⟩ := hfirst i hi segment hsegment
    exact Or.inl rfl
  · obtain ⟨-, rfl⟩ := hfirst i hi segment hsegment
    exact Nat.zero_le _
  · obtain ⟨-, rfl⟩ := hfirst i hi segment hsegment
    exact hvaddr
  · obtain ⟨-, rfl⟩ := hfirst i hi segment hsegment
    rw [hpages] at hp
    obtain rfl : p = 0 := by omega
    rw [hplace, virtualPage_of_inFile hready.file.aligned name haddress]
    exact hready.vaddr_ne
  · have hi : i < 1 := hi
    have hk : k < 1 := hk
    exact absurd (by omega) hne

end OneSegment

/-- A file of one segment, linked at 0x10000000, is loaded. -/
theorem imageLoaded_iff_high : ∃ (s : SpaceState) (next : Memory) (supplyNext : TableSupply),
    elfLoadFromInitrd BootLayout.low.pml4Table (some ⟨0#64, 120#32, 0xC00000#64⟩)
        (s.memory, s.supply) = some (some 0x10000000#64, next, supplyNext) ∧
      ImageLoaded BootLayout.low.pml4Table s.memory ⟨0#64, 120#32, 0xC00000#64⟩ 64#64 1#16
        0x10000000#64 next := by
  obtain ⟨s, hstate⟩ := exists_fileState (show highImage.length ≤ 4096 by decide)
  have hready := hstate.loadReady (by decide) oneSegment_highImage rfl (Or.inl (by decide))
    (by decide)
  obtain ⟨next, supplyNext, -, hload, -⟩ :=
    oneSegment_loads hready 0#64 (show ehdrSize ≤ 120#32 by decide)
  have hphoff := hready.file.readField (by decide) (by decide) hready.file.file.phoff
  have hphnum := hready.file.readField (by decide) (by decide) hready.file.file.phnum
  have hclean : EverySegment BootLayout.low.pml4Table 0xC00000#64 64#64 (s.memory, s.supply)
      (CleanSegment BootLayout.low.pml4Table) := by
    intro i state phnum segment hloop hread hi hphdr
    exact (hready.fileApart 0#64 120#32 (fun _ ↦ False.elim) _ 64#64 rfl hphoff i state phnum
      segment
      hloop hread hi hphdr).2
  refine ⟨s, next, supplyNext, hload, (imageLoaded_iff (f := ⟨0#64, 120#32, 0xC00000#64⟩)
    hready.spaces hphoff hphnum (hready.properImage 0#64 (by decide)) hclean hload).1
      ⟨hready.fileSafe 0#64, ?_⟩⟩
  -- there is no later segment
  rintro i - segment - j - ⟨k, hk, hik, -⟩
  have hk : k < 1 := hk
  omega

/-- A file with two segments of one byte in one page. -/
def sharedPage : List Byte :=
  elfHeader 0x80000#64 2#8 ++ loadHeader ⟨0x80000#64, 1#64, 1#64, 176#64⟩ ++
    loadHeader ⟨0x80010#64, 1#64, 1#64, 177#64⟩ ++ [0xAA#8, 0xBB#8]

/-- Its headers. -/
theorem sharedPage_header :
    AcceptsHeader 0x1000#64 (lowMachine sharedPage).1 ⟨0#64, 178#32, 0x10000#64⟩ 64#64 ∧
      readField 16 0x1000#64 (lowMachine sharedPage).1 (0x10000#64 + 56#64) = some 2#16 ∧
        segmentAt 0x1000#64 (lowMachine sharedPage).1 0x10000#64 64#64 0 =
            some ⟨0x80000#64, 1#64, 1#64, 176#64⟩ ∧
          segmentAt 0x1000#64 (lowMachine sharedPage).1 0x10000#64 64#64 1 =
            some ⟨0x80010#64, 1#64, 1#64, 177#64⟩ := by
  refine ⟨⟨by decide, ?_, ?_, ?_⟩, ?_⟩ <;> decide +kernel

/-- It loads, and the byte of its first segment is not there. -/
theorem sharedPage_loads : ∃ next,
    elfLoadFromInitrd 0x1000#64 (some ⟨0#64, 178#32, 0x10000#64⟩) (lowMachine sharedPage) =
        some (some 0x80000#64, next) ∧
      readByte 0x1000#64 next.1 0x80000#64 = some 0#8 := by
  have hloop : (leavingLoop (loadSegment 0x1000#64 0x10000#64 64#64) 3
      (lowMachine sharedPage)).map (Sum.elim (fun exit ↦ some (exit.1,
        readField 64 0x1000#64 exit.2.1 (0x10000#64 + 24#64),
          readByte 0x1000#64 exit.2.1 0x80000#64)) fun _ ↦ none) =
            some (some (true, some 0x80000#64, some 0#8)) := by decide +kernel
  rw [Option.map_eq_some_iff] at hloop
  obtain ⟨⟨done, next⟩ | reached, hleft, hexit⟩ := hloop
  · simp only [Sum.elim_inl, Option.some.injEq, Prod.mk.injEq] at hexit
    obtain ⟨rfl, hentry, hbyte⟩ := hexit
    have hsegments : loadSegments 0x1000#64 0x10000#64 64#64 (lowMachine sharedPage) =
        some (Sum.inl (true, next)) := leavingLoop_of_left (show 3 ≤ 2 ^ 16 by decide) hleft
    obtain ⟨haccepts, -⟩ := sharedPage_header
    refine ⟨next, ?_, hbyte⟩
    rw [haccepts.elfLoad, hsegments, returnEntry, hentry, Option.map_some]
  · cases hexit

/-- It is in order. -/
theorem sharedPage_proper : ProperImage 0x1000#64 (lowMachine sharedPage).1
    ⟨0#64, 178#32, 0x10000#64⟩ 64#64 2#16 := by
  obtain ⟨-, -, hfirst, hsecond⟩ := sharedPage_header
  have hwhich : ∀ i < (2#16 : BitVec 16).toNat, ∀ segment,
      segmentAt 0x1000#64 (lowMachine sharedPage).1 0x10000#64 64#64 i = some segment →
        (i = 0 ∧ segment = ⟨0x80000#64, 1#64, 1#64, 176#64⟩) ∨
          (i = 1 ∧ segment = ⟨0x80010#64, 1#64, 1#64, 177#64⟩) := by
    intro i hi segment hsegment
    have hi : i < 2 := hi
    obtain rfl | rfl : i = 0 ∨ i = 1 := by omega
    · exact Or.inl ⟨rfl, (Option.some.inj (hfirst.symm.trans hsegment)).symm⟩
    · exact Or.inr ⟨rfl, (Option.some.inj (hsecond.symm.trans hsegment)).symm⟩
  have hbelow : ∀ address, InFile ⟨0#64, 178#32, 0x10000#64⟩ address →
      virtualPage address ≠ virtualPage 0x80000#64 := by
    intro address haddress hsame
    change (address - 0x10000#64).toNat < 178 at haddress
    have hnumber := congrArg BitVec.toNat hsame
    rw [toNat_virtualPage, toNat_virtualPage, show (0x80000#64 : Word).toNat = 0x80000 from rfl]
      at hnumber
    rw [BitVec.toNat_sub, show (0x10000#64 : Word).toNat = 0x10000 from rfl] at haddress
    omega
  refine ⟨by decide, fun i hi segment hsegment ↦ ?_, fun i hi segment hsegment ↦ ?_,
    fun i hi segment hsegment ↦ ?_, fun i hi segment hsegment p hp address haddress ↦ ?_,
    fun i hi k hk hne segment other hsegment hother j hj l hl ↦ ?_⟩
  · rcases hwhich i hi segment hsegment with ⟨-, rfl⟩ | ⟨-, rfl⟩ <;> decide
  · rcases hwhich i hi segment hsegment with ⟨-, rfl⟩ | ⟨-, rfl⟩ <;> decide
  · rcases hwhich i hi segment hsegment with ⟨-, rfl⟩ | ⟨-, rfl⟩ <;> decide
  · rcases hwhich i hi segment hsegment with ⟨-, rfl⟩ | ⟨-, rfl⟩
    · have hp : p < 1 := hp
      obtain rfl : p = 0 := by omega
      exact hbelow address haddress
    · have hp : p < 1 := hp
      obtain rfl : p = 0 := by omega
      exact hbelow address haddress
  · rcases hwhich i hi segment hsegment with ⟨rfl, rfl⟩ | ⟨rfl, rfl⟩ <;>
      rcases hwhich k hk other hother with ⟨rfl, rfl⟩ | ⟨rfl, rfl⟩
    · exact absurd rfl hne
    · obtain rfl : j = 0 := Nat.lt_one_iff.mp hj
      obtain rfl : l = 0 := Nat.lt_one_iff.mp hl
      decide
    · obtain rfl : j = 0 := Nat.lt_one_iff.mp hj
      obtain rfl : l = 0 := Nat.lt_one_iff.mp hl
      decide
    · exact absurd rfl hne

/-- The second segment takes the page of the first. -/
theorem sharedPage_not_loaded : ¬ ∀ (pml4 entry phoff : Word) (phnum : BitVec 16) (f : InitrdFile)
    (state next : Memory × TableSupply),
      readField 64 pml4 state.1 (f.data + 32#64) = some phoff →
        readField 16 pml4 state.1 (f.data + 56#64) = some phnum →
          ProperImage pml4 state.1 f phoff phnum →
            elfLoadFromInitrd pml4 (some f) state = some (some entry, next) →
              ImageLoaded pml4 state.1 f phoff phnum entry next.1 := by
  intro hall
  obtain ⟨next, hload, hbyte⟩ := sharedPage_loads
  obtain ⟨haccepts, hphnum, hfirst, -⟩ := sharedPage_header
  have hloaded := hall _ _ _ _ _ _ next haccepts.phoff hphnum sharedPage_proper hload
  have himage := (hloaded.bytes 0 (by decide) _ hfirst 0 (by decide)).2
  have hread : readByte 0x1000#64 next.1 0x80000#64 =
      segmentByte 0x1000#64 (lowMachine sharedPage).1 0x10000#64
        ⟨0x80000#64, 1#64, 1#64, 176#64⟩ 0 := himage
  rw [hbyte] at hread
  exact absurd hread (by decide +kernel)

end Colix.Elf
