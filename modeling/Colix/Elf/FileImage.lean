import Colix.Elf.LoadedImage

/-!
# The image that a file describes

What the bytes of an ELF file say, without a machine: its entry point, its segments, and the bytes
that belong in them. `HoldsFile` is a machine that has the bytes in its memory; there the loader
reads what the file says, and `fileLoaded_of_elfLoad` states what it leaves in terms of the file
alone.
-/

set_option autoImplicit false
set_option relaxedAutoImplicit false

namespace Colix.Elf

open Foundation Mm Initrd Proc

/-! ### What a file says -/

/-- The bytes of a file, from zero on. -/
def dataBytes (data : List Byte) : Memory :=
  fun position ↦ data.getD position 0#8

/-- `e_entry`, `e_phoff` and `e_phnum`. -/
def fileEntry (data : List Byte) : Word :=
  load 64 (dataBytes data) 24

def filePhoff (data : List Byte) : Word :=
  load 64 (dataBytes data) 32

def filePhnum (data : List Byte) : BitVec 16 :=
  load 16 (dataBytes data) 56

/-- The header at a place of the file: the segment, when its type is `PT_LOAD`. -/
def segmentOf (data : List Byte) (ph : ℕ) : Option Segment :=
  if load 32 (dataBytes data) ph = ptLoad then
    some ⟨load 64 (dataBytes data) (ph + 16), load 64 (dataBytes data) (ph + 40),
      load 64 (dataBytes data) (ph + 32), load 64 (dataBytes data) (ph + 8)⟩
  else none

/-- The segment with a number. -/
def fileSegment (data : List Byte) (i : ℕ) : Option Segment :=
  segmentOf data ((filePhoff data).toNat + i * 56)

/-- The byte of a segment with a number: a byte of the file, or zero. -/
def imageByte (data : List Byte) (segment : Segment) (j : ℕ) : Byte :=
  if j < segment.filesz.toNat then dataBytes data (segment.offset.toNat + j) else 0#8

/-- Every segment of a file. -/
def EveryFileSegment (data : List Byte) (condition : Segment → Prop) : Prop :=
  ∀ i < (filePhnum data).toNat, ∀ segment, fileSegment data i = some segment → condition segment

/-- A file in order: headers and contents lie in it, and the segments do not reach the last page and
do not overlap. -/
structure ProperFile (data : List Byte) : Prop where
  headers : (filePhoff data).toNat + (filePhnum data).toNat * 56 ≤ data.length
  content : EveryFileSegment data fun segment ↦
    segment.filesz = 0#64 ∨ segment.offset.toNat + segment.filesz.toNat ≤ data.length
  filesz_le : EveryFileSegment data fun segment ↦ segment.filesz.toNat ≤ segment.memsz.toNat
  noWrap : EveryFileSegment data fun segment ↦
    segment.vaddr.toNat + segment.memsz.toNat + 0xFFF < 2 ^ 64
  disjoint : ∀ i < (filePhnum data).toNat, ∀ k < (filePhnum data).toNat, i ≠ k →
    ∀ segment other, fileSegment data i = some segment → fileSegment data k = some other →
      ∀ j < segment.memsz.toNat, ∀ l < other.memsz.toNat,
        segment.vaddr + BitVec.ofNat 64 j ≠ other.vaddr + BitVec.ofNat 64 l

/-- The pages of the segments hold none of the addresses. -/
def LinkedApart (kernel : Word → Prop) (data : List Byte) : Prop :=
  EveryFileSegment data fun segment ↦ ∀ p < segment.pages, ∀ address, kernel address →
    virtualPage address ≠ virtualPage (segment.page p)

/-- A byte of the segment with a number lies in a page that a later segment has too. -/
def FileOverlaid (data : List Byte) (i : ℕ) (segment : Segment) (j : ℕ) : Prop :=
  ∃ k < (filePhnum data).toNat, i < k ∧ ∃ later, fileSegment data k = some later ∧
    ∃ p < later.pages,
      virtualPage (segment.vaddr + BitVec.ofNat 64 j) = virtualPage (later.page p)

/-! ### Reading it -/

/-- The loader reads the bytes of the file where the table says that it is. -/
structure HoldsFile (pml4 : Word) (memory : Memory) (f : InitrdFile) (data : List Byte) : Prop where
  size : f.size.toNat = data.length
  byte : ∀ k < data.length,
    readByte pml4 memory (f.data + BitVec.ofNat 64 k) = some (dataBytes data k)

section Reads

variable {pml4 : Word} {memory : Memory} {f : InitrdFile} {data : List Byte} {segment : Segment}
  {i j : ℕ}

theorem HoldsFile.readNat (hreads : HoldsFile pml4 memory f data) {count offset : ℕ}
    (hfits : offset + count ≤ data.length) :
    readNat pml4 memory count (f.data + BitVec.ofNat 64 offset) =
      some (loadNat count (dataBytes data) offset) := by
  induction count generalizing offset with
  | zero => rfl
  | succ count ih =>
    have hnext : f.data + BitVec.ofNat 64 offset + 1#64 =
        f.data + BitVec.ofNat 64 (offset + 1) := by
      rw [BitVec.ofNat_add, BitVec.add_assoc]
    rw [Elf.readNat, hreads.byte offset (by omega), hnext]
    simp only
    rw [ih (by omega)]
    rfl

/-- A field of the file. -/
theorem HoldsFile.readField (hreads : HoldsFile pml4 memory f data) {w offset : ℕ}
    (hfits : offset + w / 8 ≤ data.length) :
    readField w pml4 memory (f.data + BitVec.ofNat 64 offset) =
      some (load w (dataBytes data) offset) := by
  rw [Elf.readField, hreads.readNat hfits]
  rfl

/-- A header of the file. -/
theorem HoldsFile.readPhdr (hreads : HoldsFile pml4 memory f data) {ph : ℕ}
    (hfits : ph + 56 ≤ data.length) :
    readPhdr pml4 memory (f.data + BitVec.ofNat 64 ph) = some (segmentOf data ph) := by
  have hfield : ∀ offset ≤ 48,
      Elf.readField 64 pml4 memory (f.data + BitVec.ofNat 64 ph + BitVec.ofNat 64 offset) =
        some (load 64 (dataBytes data) (ph + offset)) := by
    intro offset hoffset
    rw [BitVec.add_assoc, ← BitVec.ofNat_add]
    exact hreads.readField (by omega)
  have htype : Elf.readField 32 pml4 memory (f.data + BitVec.ofNat 64 ph) =
      some (load 32 (dataBytes data) ph) := hreads.readField (by omega)
  rw [Elf.readPhdr, htype, segmentOf]
  simp only
  by_cases hload : load 32 (dataBytes data) ph = ptLoad
  · rw [if_neg (not_not.mpr hload), if_pos hload, hfield 16 (by decide), hfield 40 (by decide),
      hfield 32 (by decide), hfield 8 (by decide)]
    rfl
  · rw [if_pos hload, if_neg hload]

/-- The segments are those of the file. -/
theorem HoldsFile.segmentAt (hreads : HoldsFile pml4 memory f data)
    (hheaders : (filePhoff data).toNat + (filePhnum data).toNat * 56 ≤ data.length)
    (hi : i < (filePhnum data).toNat) :
    segmentAt pml4 memory f.data (filePhoff data) i = fileSegment data i := by
  have hplace : f.data + filePhoff data + BitVec.ofNat 64 i * 56#64 =
      f.data + BitVec.ofNat 64 ((filePhoff data).toNat + i * 56) := by
    rw [BitVec.ofNat_add, BitVec.ofNat_toNat, BitVec.setWidth_eq, BitVec.ofNat_mul,
      BitVec.add_assoc]
  rw [Elf.segmentAt, hplace, hreads.readPhdr (by omega), Option.join_some]
  rfl

/-- The bytes of a segment are those of the file. -/
theorem HoldsFile.segmentByte (hreads : HoldsFile pml4 memory f data)
    (hcontent : segment.filesz = 0#64 ∨
      segment.offset.toNat + segment.filesz.toNat ≤ data.length) :
    segmentByte pml4 memory f.data segment j = some (imageByte data segment j) := by
  rw [Elf.segmentByte, imageByte]
  by_cases hj : j < segment.filesz.toNat
  · have hfits : segment.offset.toNat + segment.filesz.toNat ≤ data.length := by
      refine hcontent.resolve_left ?_
      rintro hzero
      rw [hzero] at hj
      exact absurd hj (Nat.not_lt_zero j)
    have hplace : f.data + segment.offset + BitVec.ofNat 64 j =
        f.data + BitVec.ofNat 64 (segment.offset.toNat + j) := by
      rw [BitVec.ofNat_add, BitVec.ofNat_toNat, BitVec.setWidth_eq, BitVec.add_assoc]
    rw [if_pos hj, if_pos hj, hplace, hreads.byte _ (by omega)]
  · rw [if_neg hj, if_neg hj]

/-- A file in order, in memory. -/
theorem ProperFile.properImage (hproper : ProperFile data)
    (hreads : HoldsFile pml4 memory f data) (hapart : LinkedApart (InFile f) data) :
    ProperImage pml4 memory f (filePhoff data) (filePhnum data) := by
  have hsame : ∀ i < (filePhnum data).toNat, ∀ segment,
      segmentAt pml4 memory f.data (filePhoff data) i = some segment →
        fileSegment data i = some segment :=
    fun i hi segment hsegment ↦ (hreads.segmentAt hproper.headers hi).symm.trans hsegment
  constructor
  · rw [hreads.size]
    exact hproper.headers
  · rw [hreads.size]
    exact fun i hi segment hsegment ↦ hproper.content i hi segment (hsame i hi segment hsegment)
  · exact fun i hi segment hsegment ↦ hproper.filesz_le i hi segment (hsame i hi segment hsegment)
  · intro i hi segment hsegment
    have hends := hproper.noWrap i hi segment (hsame i hi segment hsegment)
    omega
  · exact fun i hi segment hsegment ↦ hapart i hi segment (hsame i hi segment hsegment)
  · exact fun i hi k hk hne segment other hsegment hother ↦ hproper.disjoint i hi k hk hne segment
      other (hsame i hi segment hsegment) (hsame k hk other hother)

/-- The bytes that a later segment takes are those that the file says. -/
theorem HoldsFile.overlaid (hreads : HoldsFile pml4 memory f data)
    (hheaders : (filePhoff data).toNat + (filePhnum data).toNat * 56 ≤ data.length)
    (hoverlaid : Overlaid pml4 memory f.data (filePhoff data) (filePhnum data).toNat i segment j) :
    FileOverlaid data i segment j := by
  obtain ⟨k, hk, hlt, later, hlater, hpage⟩ := hoverlaid
  rw [hreads.segmentAt hheaders hk] at hlater
  exact ⟨k, hk, hlt, later, hlater, hpage⟩

end Reads

/-! ### Loading it -/

section Load

variable {pml4 entry : Word} {f : InitrdFile} {data : List Byte} {origin : SpaceState}
  {next : Memory} {supplyNext : TableSupply}

/-- The image that a file describes is in memory: the byte of the file, or zero, at every address of
a segment that no later segment takes. -/
def ImageInPlace (pml4 : Word) (memory : Memory) (data : List Byte) : Prop :=
  ∀ i < (filePhnum data).toNat, ∀ segment, fileSegment data i = some segment →
    ∀ j < segment.memsz.toNat, ¬ FileOverlaid data i segment j →
      readByte pml4 memory (segment.vaddr + BitVec.ofNat 64 j) = some (imageByte data segment j)

/-- What a load leaves of a file: its headers were accepted, its entry point was returned, and its
image is in place. -/
structure FileLoaded (pml4 : Word) (data : List Byte) (entry : Word) (next : Memory) : Prop where
  magic : load 32 (dataBytes data) 0 = elfMagic
  machine : load 16 (dataBytes data) 18 = emX8664
  entry_eq : entry = fileEntry data
  image : ImageInPlace pml4 next data

/-- A load that succeeds found the magic of an x86-64 file. -/
theorem HoldsFile.accepted (hreads : HoldsFile pml4 origin.memory f data)
    (hload : elfLoadFromInitrd pml4 (some f) (origin.memory, origin.supply) =
      some (some entry, next, supplyNext)) :
    64 ≤ data.length ∧ load 32 (dataBytes data) 0 = elfMagic ∧
      load 16 (dataBytes data) 18 = emX8664 := by
  rcases elfLoad_inv hload with ⟨-, hnone, -⟩ | ⟨file, phoff, hfile, haccepts, -⟩
  · cases hnone
  obtain rfl := Option.some.inj hfile
  have hsize : 64 ≤ data.length := by
    rw [← hreads.size]
    exact Nat.not_lt.mp fun hlt ↦ haccepts.size (BitVec.lt_def.mpr hlt)
  have hmagic : Elf.readField 32 pml4 origin.memory (f.data + BitVec.ofNat 64 0) =
      some (load 32 (dataBytes data) 0) := hreads.readField (by omega)
  have hmachine : Elf.readField 16 pml4 origin.memory (f.data + BitVec.ofNat 64 18) =
      some (load 16 (dataBytes data) 18) := hreads.readField (by omega)
  rw [show f.data + BitVec.ofNat 64 0 = f.data from BitVec.add_zero f.data, haccepts.magic,
    Option.some.injEq] at hmagic
  exact ⟨hsize, hmagic.symm, Option.some.inj (hmachine.symm.trans haccepts.machine)⟩

/-- What is loaded when the loop over the headers comes to one. -/
theorem placed_reached (boot : Memory × TableSupply)
    (hspaces : Spaces (origin.Root pml4) origin.memory origin.supply)
    (hsafe : FileSafe pml4 f origin) (hsize : 64 ≤ f.size.toNat) {phoff : Word}
    {phnum : BitVec 16}
    (hphnum : readField 16 pml4 origin.memory (f.data + 56#64) = some phnum)
    (hproper : ProperImage pml4 origin.memory f phoff phnum)
    (hclean : EverySegment pml4 f.data phoff (origin.memory, origin.supply) (CleanSegment pml4))
    {i : ℕ} {state : Memory × TableSupply}
    (hloop : leavingLoop (loadSegment pml4 f.data phoff) i (origin.memory, origin.supply) =
      some (Sum.inr state)) : Placed pml4 boot f phoff origin i state.1 state.2 := by
  have hstart : Placed pml4 boot f phoff origin 0 origin.memory origin.supply :=
    placed_start hspaces
  have hreached : Sum.elim (fun _ : Bool × Memory × TableSupply ↦ True)
      (fun next : Memory × TableSupply ↦ Placed pml4 boot f phoff origin i next.1 next.2)
        (Sum.inr state) := by
    refine leavingLoop_rule (motive := fun i (state : Memory × TableSupply) ↦
      Placed pml4 boot f phoff origin i state.1 state.2) hstart ?_ hloop
    rintro i - state outcome hsofar hplaced hbody
    have hread : readField 16 pml4 state.1 (f.data + 56#64) = some phnum :=
      (hplaced.load.header_file hspaces hsafe hsize (by decide)).trans hphnum
    have hnext := hplaced.loadSegment hspaces hsafe hsize hphnum hproper
      (fun segment hi hphdr ↦ hclean i state phnum segment hsofar hread hi hphdr) hbody
    rcases outcome with exit | after
    · trivial
    · exact hnext.2
  exact hreached

/-- A segment that does not reach the last page fits its pages. -/
theorem fits_of_noWrap {segment : Segment} (hfilesz : segment.filesz.toNat ≤ segment.memsz.toNat)
    (hends : segment.vaddr.toNat + segment.memsz.toNat + 0xFFF < 2 ^ 64) :
    segment.vaddr.toNat % 4096 + max segment.filesz.toNat segment.memsz.toNat ≤
      segment.pages * 4096 := by
  have hstart : segment.pageStart.toNat = segment.vaddr.toNat / 4096 * 4096 :=
    toNat_pageOf segment.vaddr
  have hend : segment.pageEnd.toNat =
      (segment.vaddr.toNat + segment.memsz.toNat + 0xFFF) / 4096 * 4096 := by
    have hpage := toNat_pageOf (segment.vaddr + segment.memsz + 0xFFF#64)
    rw [BitVec.toNat_add, BitVec.toNat_add, BitVec.toNat_ofNat, Nat.mod_add_mod,
      Nat.mod_eq_of_lt (show segment.vaddr.toNat + segment.memsz.toNat + 0xFFF % 2 ^ 64 < 2 ^ 64 by
        omega)] at hpage
    exact hpage
  have hpages : segment.pages = (segment.pageEnd - segment.pageStart).toNat / 4096 := by
    rw [Segment.pages, BitVec.toNat_ushiftRight, Nat.shiftRight_eq_div_pow]
  rw [BitVec.toNat_sub, hstart, hend] at hpages
  omega

/-- A load of a file in order stays clear of the addresses that its segments are linked apart
from. -/
theorem ProperFile.fileApart {kernel : Word → Prop} (hproper : ProperFile data)
    (hspaces : Spaces (origin.Root pml4) origin.memory origin.supply)
    (hsafe : FileSafe pml4 f origin) (hreads : HoldsFile pml4 origin.memory f data)
    (hsize : 64 ≤ data.length) (hfile : LinkedApart (InFile f) data)
    (hapart : LinkedApart kernel data)
    (hclean : EverySegment pml4 f.data (filePhoff data) (origin.memory, origin.supply)
      (CleanSegment pml4)) : FileApart pml4 kernel (some f) (origin.memory, origin.supply) := by
  have hphoff : readField 64 pml4 origin.memory (f.data + BitVec.ofNat 64 32) =
      some (filePhoff data) := hreads.readField (by omega)
  have hphnum : readField 16 pml4 origin.memory (f.data + BitVec.ofNat 64 56) =
      some (filePhnum data) := hreads.readField (by omega)
  have hsizeFile : 64 ≤ f.size.toNat := hreads.size ▸ hsize
  rintro _ phoff ⟨⟩ hread i state phnum segment hloop hphnumState hi hphdr
  obtain rfl : filePhoff data = phoff := Option.some.inj (hphoff.symm.trans hread)
  have hplaced := placed_reached (origin.memory, origin.supply) hspaces hsafe hsizeFile hphnum
    (hproper.properImage hreads hfile) hclean hloop
  have hcount : readField 16 pml4 state.1 (f.data + BitVec.ofNat 64 56) = some (filePhnum data) :=
    (hplaced.load.header_file hspaces hsafe hsizeFile (by decide)).trans hphnum
  obtain rfl : filePhnum data = phnum := Option.some.inj (hcount.symm.trans hphnumState)
  refine ⟨?_, hclean i state _ segment hloop hphnumState hi hphdr⟩
  have hheaders := hproper.headers
  have hsegment : fileSegment data i = some segment := by
    rw [hplaced.load.readPhdr_file hspaces hsafe ?_, ← segmentAt_eq_some,
      hreads.segmentAt hheaders hi] at hphdr
    · exact hphdr
    · rw [show f.data + filePhoff data + BitVec.ofNat 64 i * 56#64 - f.data =
        filePhoff data + BitVec.ofNat 64 i * 56#64 by grind, hreads.size, BitVec.toNat_add,
        BitVec.toNat_mul, BitVec.toNat_ofNat, BitVec.toNat_ofNat]
      omega
  exact ⟨hapart i hi segment hsegment, fits_of_noWrap (hproper.filesz_le i hi segment hsegment)
    (hproper.noWrap i hi segment hsegment)⟩

/-- A load of a file in order that succeeds returns the entry point that the file names and leaves
its image in place. Assumes: the file is in pages of its own, its segments are linked apart from it,
and the directories that the load makes come zeroed. -/
theorem fileLoaded_of_elfLoad (hspaces : Spaces (origin.Root pml4) origin.memory origin.supply)
    (hsafe : FileSafe pml4 f origin) (hreads : HoldsFile pml4 origin.memory f data)
    (hproper : ProperFile data) (hapart : LinkedApart (InFile f) data)
    (hclean : EverySegment pml4 f.data (filePhoff data) (origin.memory, origin.supply)
      (CleanSegment pml4))
    (hload : elfLoadFromInitrd pml4 (some f) (origin.memory, origin.supply) =
      some (some entry, next, supplyNext)) :
    FileLoaded pml4 data entry next := by
  obtain ⟨hsize, hmagic, hmachine⟩ := hreads.accepted hload
  have hphoff : readField 64 pml4 origin.memory (f.data + BitVec.ofNat 64 32) =
      some (filePhoff data) := hreads.readField (by omega)
  have hphnum : readField 16 pml4 origin.memory (f.data + BitVec.ofNat 64 56) =
      some (filePhnum data) := hreads.readField (by omega)
  have hentry : readField 64 pml4 origin.memory (f.data + BitVec.ofNat 64 24) =
      some (fileEntry data) := hreads.readField (by omega)
  obtain ⟨hreturned, hplaced⟩ := placed_of_elfLoad hspaces hsafe hphoff hphnum
    (hproper.properImage hreads hapart) hclean hload
  refine ⟨hmagic, hmachine, Option.some.inj (hreturned.symm.trans hentry),
    fun i hi segment hsegment j hj hnot ↦ ?_⟩
  have hsame := (hreads.segmentAt hproper.headers hi).trans hsegment
  rw [hplaced.placed i hi segment hsame j hj fun hoverlaid ↦
    hnot (hreads.overlaid hproper.headers hoverlaid)]
  exact hreads.segmentByte (hproper.content i hi segment hsegment)

end Load

end Colix.Elf
