import Colix.Elf.FailedLoad
import Colix.Elf.KernelKept
import Colix.Elf.LoaderAccess

/-!
# Where the ELF loader reads and writes

The loader checks the size of the file against its header, and no field of any header after that.
`loadsInside_iff` says for which files it stays inside all the same: the headers that it comes to,
and the bytes of the segments, have to lie in the file, and the bytes of a segment have to lie in
the pages that its memory size asks for.
-/

set_option autoImplicit false
set_option relaxedAutoImplicit false

namespace Colix.Elf

open Foundation Mm Initrd Proc

/-! ### The condition -/

/-- A byte of the file is read, or a byte is written to a page that was mapped for its segment. -/
def AllowedAccess (f : InitrdFile) : LoadAccess → Prop
  | .read address => (address - f.data).toNat < f.size.toNat
  | .write segment address =>
    Canonical address ∧ ∃ p < segment.pages, pageOf address = segment.page p

/-- Every access of the loader stays inside. -/
def LoadsInside (pml4 : Word) (f : InitrdFile) (state : Memory × TableSupply) : Prop :=
  (elfLoadTraced pml4 (some f) state).Within (AllowedAccess f)

/-- The bytes of a segment lie in the file, and fit its pages. -/
structure SegmentInside (f : InitrdFile) (segment : Segment) : Prop where
  content : segment.filesz = 0#64 ∨
    segment.offset.toNat + segment.filesz.toNat ≤ f.size.toNat
  fits : max segment.filesz.toNat segment.memsz.toNat = 0 ∨
    segment.vaddr.toNat % 4096 + max segment.filesz.toNat segment.memsz.toNat ≤
      segment.pages * 4096
  canonical : ∀ j < max segment.filesz.toNat segment.memsz.toNat,
    Canonical (segment.vaddr + BitVec.ofNat 64 j)

/-- A header lies in the file as far as it is read, and so does its segment when the page allocator
has the pages. -/
structure HeaderInside (pml4 : Word) (f : InitrdFile) (header : Word)
    (state : Memory × TableSupply) : Prop where
  type : (header - f.data).toNat + 4 ≤ f.size.toNat
  fields : readField 32 pml4 state.1 header = some ptLoad →
    (header - f.data).toNat + 48 ≤ f.size.toNat
  segment : ∀ segment, readPhdr pml4 state.1 header = some (some segment) →
    (∃ mapped, leavingLoop (mapPage pml4 segment) segment.pages state = some (Sum.inr mapped)) →
      SegmentInside f segment

/-- Every header that the loop comes to lies in the file. -/
def FileInside (pml4 : Word) (f : InitrdFile) (start : Memory × TableSupply) : Prop :=
  ¬ RejectsHeader pml4 start.1 (some f) → ∀ phoff,
    readField 64 pml4 start.1 (f.data + 32#64) = some phoff → ∀ i state phnum,
      leavingLoop (loadSegment pml4 f.data phoff) i start = some (Sum.inr state) →
        readField 16 pml4 state.1 (f.data + 56#64) = some phnum → i < phnum.toNat →
          HeaderInside pml4 f (f.data + phoff + BitVec.ofNat 64 i * 56#64) state

/-! ### The bytes of a field, and of a segment -/

section Bytes

variable {pml4 address : Word} {f : InitrdFile} {memory : Memory} {segment : Segment} {w j : ℕ}

/-- A field lies in the file when its bytes do. -/
theorem allowed_fieldBytes (hlow : 8 ≤ w) (hhigh : w ≤ 64) :
    (∀ place ∈ fieldBytes w address, AllowedAccess f place) ↔
      (address - f.data).toNat + w / 8 ≤ f.size.toNat := by
  have hsize := f.size.isLt
  have hbyte : ∀ k < w / 8, (address + BitVec.ofNat 64 k - f.data).toNat =
      ((address - f.data).toNat + k) % 2 ^ 64 := by
    intro k hk
    rw [show address + BitVec.ofNat 64 k - f.data = address - f.data + BitVec.ofNat 64 k by grind,
      BitVec.toNat_add, BitVec.toNat_ofNat, Nat.mod_eq_of_lt (show k < 2 ^ 64 by omega)]
  simp only [fieldBytes, List.mem_map, List.mem_range, forall_exists_index, and_imp]
  constructor
  · intro hall
    have hfirst := hall _ 0 (by omega) rfl
    have hlast := hall _ (w / 8 - 1) (by omega) rfl
    rw [AllowedAccess, hbyte _ (by omega)] at hfirst hlast
    omega
  · rintro hfits _ k hk rfl
    rw [AllowedAccess, hbyte k hk]
    omega

theorem within_readFieldTraced (hlow : 8 ≤ w) (hhigh : w ≤ 64) :
    (readFieldTraced w pml4 memory address).Within (AllowedAccess f) ↔
      (address - f.data).toNat + w / 8 ≤ f.size.toNat := by
  rw [readFieldTraced, Traced.within_bind, Traced.within_access, allowed_fieldBytes hlow hhigh]
  exact and_iff_left fun _ _ ↦ (Traced.within_ofOption _).mpr trivial

/-- A field of the header lies in a file that is not too small. -/
theorem allowed_headerField (hlow : 8 ≤ w) (hhigh : w ≤ 64) {offset : ℕ}
    (hsize : ¬ f.size < ehdrSize) (hoffset : offset + w / 8 ≤ 64) :
    ∀ place ∈ fieldBytes w (f.data + BitVec.ofNat 64 offset), AllowedAccess f place := by
  rw [allowed_fieldBytes hlow hhigh,
    show f.data + BitVec.ofNat 64 offset - f.data = BitVec.ofNat 64 offset by grind,
    BitVec.toNat_ofNat]
  have hsize : 64 ≤ f.size.toNat := by
    rw [BitVec.lt_def] at hsize
    exact Nat.not_lt.mp hsize
  omega

theorem within_headerField (hlow : 8 ≤ w) (hhigh : w ≤ 64) {offset : ℕ}
    (hsize : ¬ f.size < ehdrSize) (hoffset : offset + w / 8 ≤ 64) :
    (readFieldTraced w pml4 memory (f.data + BitVec.ofNat 64 offset)).Within
      (AllowedAccess f) :=
  (within_readFieldTraced hlow hhigh).mpr
    ((allowed_fieldBytes hlow hhigh).mp (allowed_headerField hlow hhigh hsize hoffset))

/-- The number of pages is small. -/
theorem Segment.pages_lt (segment : Segment) : segment.pages < 2 ^ 52 := by
  have hdistance := (segment.pageEnd - segment.pageStart).isLt
  rw [Segment.pages, BitVec.toNat_ushiftRight, Nat.shiftRight_eq_div_pow]
  omega

/-- A byte of a segment lies in its pages, or past them. -/
theorem pageOf_eq_page_iff (hj : j < 2 ^ 64) :
    (∃ p < segment.pages, pageOf (segment.vaddr + BitVec.ofNat 64 j) = segment.page p) ↔
      (segment.vaddr.toNat % 4096 + j) % 2 ^ 64 < segment.pages * 4096 := by
  have hpages := segment.pages_lt
  have hvaddr := segment.vaddr.isLt
  have hstart : segment.pageStart.toNat = segment.vaddr.toNat / 4096 * 4096 :=
    toNat_pageOf segment.vaddr
  have hbyte : (pageOf (segment.vaddr + BitVec.ofNat 64 j)).toNat =
      (segment.vaddr.toNat + j) % 2 ^ 64 / 4096 * 4096 := by
    rw [toNat_pageOf, BitVec.toNat_add, BitVec.toNat_ofNat, Nat.mod_eq_of_lt hj]
  have hpage : ∀ p < segment.pages, (segment.page p).toNat =
      (segment.vaddr.toNat / 4096 * 4096 + p * 4096) % 2 ^ 64 := by
    intro p hp
    rw [Segment.page, BitVec.toNat_add, BitVec.toNat_mul, BitVec.toNat_ofNat, BitVec.toNat_ofNat,
      hstart]
    omega
  constructor
  · rintro ⟨p, hp, hsame⟩
    have hnumber := congrArg BitVec.toNat hsame
    rw [hbyte, hpage p hp] at hnumber
    omega
  · intro hlt
    refine ⟨(segment.vaddr.toNat % 4096 + j) % 2 ^ 64 / 4096, by omega, BitVec.eq_of_toNat_eq ?_⟩
    rw [hbyte, hpage _ (by omega)]
    omega

/-- All bytes up to a number lie in the pages of the segment when that many fit. -/
theorem inPages_iff_fits {count : ℕ} (hcount : count < 2 ^ 64) :
    (∀ j < count, ∃ p < segment.pages,
      pageOf (segment.vaddr + BitVec.ofNat 64 j) = segment.page p) ↔
        count = 0 ∨ segment.vaddr.toNat % 4096 + count ≤ segment.pages * 4096 := by
  have hpages := segment.pages_lt
  constructor
  · intro hall
    rcases Nat.eq_zero_or_pos count with hzero | hpos
    · exact .inl hzero
    refine .inr ?_
    by_contra hover
    have hbyte : ∀ j < count, (segment.vaddr.toNat % 4096 + j) % 2 ^ 64 < segment.pages * 4096 :=
      fun j hj ↦ (pageOf_eq_page_iff (by omega)).mp (hall j hj)
    have hlast := hbyte (count - 1) (by omega)
    by_cases hwraps : segment.vaddr.toNat % 4096 + (count - 1) < 2 ^ 64
    · omega
    · have hend := hbyte (2 ^ 64 - 1 - segment.vaddr.toNat % 4096) (by omega)
      omega
  · rintro (hzero | hfits) j hj
    · omega
    · refine (pageOf_eq_page_iff (by omega)).mpr ?_
      omega

/-- A byte of the content of a segment lies in the file, or past it. -/
theorem toNat_sub_content (base offset : Word) (hj : j < 2 ^ 64) :
    (base + offset + BitVec.ofNat 64 j - base).toNat = (offset.toNat + j) % 2 ^ 64 := by
  rw [show base + offset + BitVec.ofNat 64 j - base = offset + BitVec.ofNat 64 j by grind,
    BitVec.toNat_add, BitVec.toNat_ofNat, Nat.mod_eq_of_lt hj]

/-- All bytes up to a number lie in the file when that many fit. -/
theorem inFile_iff_fits (f : InitrdFile) (offset : Word) {count : ℕ} (hcount : count < 2 ^ 64) :
    (∀ j < count, (f.data + offset + BitVec.ofNat 64 j - f.data).toNat < f.size.toNat) ↔
      count = 0 ∨ offset.toNat + count ≤ f.size.toNat := by
  have hsize := f.size.isLt
  constructor
  · intro hall
    rcases Nat.eq_zero_or_pos count with hzero | hpos
    · exact .inl hzero
    refine .inr ?_
    by_contra hover
    have hbyte : ∀ j < count, (offset.toNat + j) % 2 ^ 64 < f.size.toNat := by
      intro j hj
      rw [← toNat_sub_content f.data offset (by omega)]
      exact hall j hj
    have hoffset := offset.isLt
    have hfirst := hbyte 0 hpos
    have hend := hbyte (f.size.toNat - offset.toNat) (by omega)
    omega
  · rintro (hzero | hfits) j hj
    · omega
    · rw [toNat_sub_content f.data offset (by omega)]
      omega

end Bytes

/-! ### A file inside its bounds -/

section Inside

variable {pml4 ph phoff : Word} {f : InitrdFile} {memory : Memory} {segment : Segment}
  {state : Memory × TableSupply}

/-- A field of a program header that lies in the file. -/
theorem within_phdrField (hfields : (ph - f.data).toNat + 48 ≤ f.size.toNat) {offset : Word}
    (hoffset : offset.toNat + 8 ≤ 48) :
    (readFieldTraced 64 pml4 memory (ph + offset)).Within (AllowedAccess f) := by
  have hsize := f.size.isLt
  rw [within_readFieldTraced (by decide) (by decide),
    show ph + offset - f.data = ph - f.data + offset by grind, BitVec.toNat_add]
  omega

theorem HeaderInside.within_readPhdrTraced (hinside : HeaderInside pml4 f ph state) :
    (readPhdrTraced pml4 state.1 ph).Within (AllowedAccess f) := by
  rw [readPhdrTraced, Traced.within_bind]
  refine ⟨(within_readFieldTraced (by decide) (by decide)).mpr hinside.type, fun pType hpType ↦ ?_⟩
  split_ifs with htype
  · exact (Traced.within_pure _).mpr trivial
  · rw [not_not] at htype
    subst htype
    have hfields := hinside.fields hpType
    rw [Traced.within_bind]
    refine ⟨within_phdrField hfields (by decide), fun vaddr _ ↦ ?_⟩
    rw [Traced.within_bind]
    refine ⟨within_phdrField hfields (by decide), fun memsz _ ↦ ?_⟩
    rw [Traced.within_bind]
    refine ⟨within_phdrField hfields (by decide), fun filesz _ ↦ ?_⟩
    rw [Traced.within_bind]
    exact ⟨within_phdrField hfields (by decide), fun _ _ ↦ (Traced.within_pure _).mpr trivial⟩

/-- A write to a byte of a segment that fits its pages. -/
theorem SegmentInside.allowed_write (hinside : SegmentInside f segment) {j : ℕ}
    (hj : j < max segment.filesz.toNat segment.memsz.toNat) :
    AllowedAccess f (.write segment (segment.vaddr + BitVec.ofNat 64 j)) := by
  have hfilesz := segment.filesz.isLt
  have hmemsz := segment.memsz.isLt
  exact ⟨hinside.canonical j hj,
    (inPages_iff_fits (max_lt hfilesz hmemsz)).mpr hinside.fits j hj⟩

/-- A read of a byte of a segment's content. -/
theorem SegmentInside.allowed_read (hinside : SegmentInside f segment) {j : ℕ}
    (hj : j < segment.filesz.toNat) :
    AllowedAccess f (.read (f.data + segment.offset + BitVec.ofNat 64 j)) := by
  refine (inFile_iff_fits f segment.offset segment.filesz.isLt).mpr ?_ j hj
  refine hinside.content.imp_left fun hzero ↦ ?_
  rw [hzero]
  rfl

theorem SegmentInside.within_fillSegmentTraced (hinside : SegmentInside f segment) :
    (fillSegmentTraced pml4 f.data segment memory).Within (AllowedAccess f) := by
  rw [fillSegmentTraced, Traced.within_bind, Traced.within_countedLoop]
  refine ⟨fun j hj reached _ ↦ ?_, fun copied _ ↦ Traced.within_countedLoop.mpr fun j hj _ _ ↦ ?_⟩
  · rw [copyByteTraced]
    simp only [Traced.within_bind, Traced.within_access, Traced.within_ofOption,
      List.mem_singleton, forall_eq]
    exact ⟨hinside.allowed_read hj, fun _ _ ↦ ⟨trivial, fun _ _ ↦
      ⟨hinside.allowed_write (lt_max_of_lt_left hj), fun _ _ ↦ trivial⟩⟩⟩
  · rw [clearByteTraced]
    simp only [Traced.within_bind, Traced.within_access, Traced.within_ofOption,
      List.mem_singleton, forall_eq]
    exact ⟨hinside.allowed_write (by omega), fun _ _ ↦ trivial⟩

/-- An iteration of the loop over the headers, given the header it comes to. -/
theorem within_loadSegmentTraced (hsize : ¬ f.size < ehdrSize) {i : ℕ}
    (hheader : ∀ phnum, readField 16 pml4 state.1 (f.data + 56#64) = some phnum →
      i < phnum.toNat →
        HeaderInside pml4 f (f.data + phoff + BitVec.ofNat 64 i * 56#64) state) :
    (loadSegmentTraced pml4 f.data phoff i state).Within (AllowedAccess f) := by
  rw [loadSegmentTraced, Traced.within_bind]
  refine ⟨within_headerField (by decide) (by decide) hsize (by decide),
    fun phnum hphnum ↦ ?_⟩
  split_ifs with hi
  · have hinside := hheader phnum hphnum hi
    rw [Traced.within_bind]
    refine ⟨hinside.within_readPhdrTraced, fun header hphdr ↦ ?_⟩
    rw [value_readPhdrTraced] at hphdr
    rcases header with _ | segment
    · exact (Traced.within_pure _).mpr trivial
    · rw [loadHeaderTraced, Traced.within_bind, Traced.value_ofOption]
      refine ⟨(Traced.within_ofOption _).mpr trivial, ?_⟩
      rintro (exit | ⟨memory, supply⟩) hmapped
      · exact (Traced.within_pure _).mpr trivial
      · rw [fillMapped, Traced.within_bind]
        exact ⟨(hinside.segment segment hphdr ⟨_, hmapped⟩).within_fillSegmentTraced,
          fun _ _ ↦ (Traced.within_pure _).mpr trivial⟩
  · exact (Traced.within_pure _).mpr trivial

/-- What follows the loop over the headers reads the entry point. -/
theorem within_returnEntryTraced (hsize : ¬ f.size < ehdrSize)
    (outcome : (Bool × Memory × TableSupply) ⊕ (Memory × TableSupply)) :
    (returnEntryTraced pml4 f.data outcome).Within (AllowedAccess f) := by
  rcases outcome with ⟨done | done, reached⟩ | reached
  · exact (Traced.within_pure _).mpr trivial
  · rw [returnEntryTraced, Traced.within_bind]
    exact ⟨within_headerField (by decide) (by decide) hsize (by decide),
      fun _ _ ↦ (Traced.within_pure _).mpr trivial⟩
  · exact (Traced.within_ofOption _).mpr trivial

/-- What follows the checks of the header stays inside when every iteration does. -/
theorem within_loadSegmentsTraced (hsize : ¬ f.size < ehdrSize) (count : ℕ) :
    (loadSegmentsTraced pml4 f.data count state).Within (AllowedAccess f) ↔
      ∀ phoff, readField 64 pml4 state.1 (f.data + 32#64) = some phoff → ∀ i < count, ∀ reached,
        leavingLoop (loadSegment pml4 f.data phoff) i state = some (Sum.inr reached) →
          (loadSegmentTraced pml4 f.data phoff i reached).Within (AllowedAccess f) := by
  rw [loadSegmentsTraced, Traced.within_bind, value_readFieldTraced,
    and_iff_right (within_headerField (by decide) (by decide) hsize (by decide))]
  refine forall₂_congr fun phoff _ ↦ ?_
  rw [Traced.within_bind, Traced.within_leavingLoop,
    and_iff_left fun outcome _ ↦ within_returnEntryTraced hsize outcome]
  simp only [value_loopTraced]

/-- The reads of the header stay inside. -/
theorem within_elfLoadTraced (hsize : ¬ f.size < ehdrSize) :
    (elfLoadTraced pml4 (some f) state).Within (AllowedAccess f) ↔
      (readField 32 pml4 state.1 f.data = some elfMagic →
        readField 16 pml4 state.1 (f.data + 18#64) = some emX8664 →
          (loadSegmentsTraced pml4 f.data (2 ^ 16) state).Within (AllowedAccess f)) := by
  have hmagic : (readFieldTraced 32 pml4 state.1 (f.data + 0#64)).Within (AllowedAccess f) :=
    within_headerField (by decide) (by decide) hsize (by decide)
  rw [BitVec.add_zero] at hmagic
  have hprinted : ∀ place ∈ fieldBytes 64 (f.data + 24#64) ++ fieldBytes 64 (f.data + 32#64),
      AllowedAccess f place := by
    intro place hplace
    rcases List.mem_append.mp hplace with hentry | hphoff
    · exact allowed_headerField (by decide) (by decide) hsize (by decide) place hentry
    · exact allowed_headerField (by decide) (by decide) hsize (by decide) place hphoff
  simp only [elfLoadTraced, if_neg hsize]
  generalize loadSegmentsTraced pml4 f.data (2 ^ 16) state = rest
  rw [Traced.within_bind, and_iff_right hmagic, value_readFieldTraced]
  constructor
  · intro hall hgood hmachine
    have hchecked := hall elfMagic hgood
    rw [Traced.within_bind] at hchecked
    have hmagicRead := hchecked.2 () rfl
    rw [if_neg (not_not.mpr rfl), Traced.within_bind] at hmagicRead
    have hmachineRead := hmagicRead.2 emX8664 hmachine
    rwa [if_neg (not_not.mpr rfl)] at hmachineRead
  · intro hrest magic hvalue
    rw [Traced.within_bind]
    refine ⟨(Traced.within_access _ _).mpr hprinted, fun _ _ ↦ ?_⟩
    split_ifs with hbad
    · exact (Traced.within_pure _).mpr trivial
    rw [not_not] at hbad
    subst hbad
    rw [Traced.within_bind]
    refine ⟨within_headerField (by decide) (by decide) hsize (by decide), fun machine hmachine ↦ ?_⟩
    split_ifs with hother
    · exact (Traced.within_pure _).mpr trivial
    rw [not_not] at hother
    subst hother
    exact hrest hvalue hmachine

/-- A file inside its bounds is loaded inside its bounds. -/
theorem loadsInside_of_fileInside (hinside : FileInside pml4 f state) :
    LoadsInside pml4 f state := by
  rw [LoadsInside]
  by_cases hsize : f.size < ehdrSize
  · rw [elfLoadTraced, if_pos hsize]
    exact (Traced.within_pure _).mpr trivial
  rw [within_elfLoadTraced hsize]
  intro hmagic hmachine
  have haccepted := not_rejectsHeader hsize hmagic hmachine
  refine (within_loadSegmentsTraced hsize (2 ^ 16)).mpr fun phoff hphoff i _ reached hreached ↦ ?_
  exact within_loadSegmentTraced hsize fun phnum hphnum hi ↦
    hinside haccepted phoff hphoff i reached phnum hreached hphnum hi

end Inside

/-! ### Reading a file that is mapped -/

/-- The bytes of the file can be read. -/
def ImageMapped (pml4 : Word) (f : InitrdFile) (memory : Memory) : Prop :=
  ∀ k < f.size.toNat, (translate memory pml4 (f.data + BitVec.ofNat 64 k)).isSome

section Mapped

variable {pml4 address ph : Word} {f : InitrdFile} {memory next : Memory} {w : ℕ}

theorem isSome_translate : (translate memory pml4 address).isSome ↔
    Canonical address ∧ (pageMap memory pml4 (virtualPage address)).isSome := by
  rw [translate]
  split_ifs with hcanonical <;> simp [hcanonical]

/-- Mapping more pages leaves the file readable. -/
theorem ImageMapped.mono (himage : ImageMapped pml4 f memory)
    (hmapped : ∀ page, (pageMap memory pml4 page).isSome → (pageMap next pml4 page).isSome) :
    ImageMapped pml4 f next := by
  intro k hk
  have hbefore := isSome_translate.mp (himage k hk)
  exact isSome_translate.mpr ⟨hbefore.1, hmapped _ hbefore.2⟩

theorem ImageMapped.translate (himage : ImageMapped pml4 f memory)
    (haddress : (address - f.data).toNat < f.size.toNat) :
    (Elf.translate memory pml4 address).isSome := by
  have hbyte := himage _ haddress
  rwa [BitVec.ofNat_toNat, BitVec.setWidth_eq,
    show f.data + (address - f.data) = address by grind] at hbyte

/-- Consecutive bytes of the file. -/
theorem ImageMapped.readNat (himage : ImageMapped pml4 f memory) {count : ℕ} {address : Word}
    (haddress : (address - f.data).toNat + count ≤ f.size.toNat) :
    (Elf.readNat pml4 memory count address).isSome := by
  induction count generalizing address with
  | zero => rfl
  | succ count ih =>
    have hsize := f.size.isLt
    have hhere := himage.translate (show (address - f.data).toNat < f.size.toNat by omega)
    have hnext : (address + 1#64 - f.data).toNat = (address - f.data).toNat + 1 := by
      rw [show address + 1#64 - f.data = address - f.data + 1#64 by grind, BitVec.toNat_add,
        BitVec.toNat_ofNat]
      omega
    have hrest : (Elf.readNat pml4 memory count (address + 1#64)).isSome := ih (by omega)
    rw [Option.isSome_iff_exists] at hhere
    obtain ⟨phys, hphys⟩ := hhere
    rw [Elf.readNat, readByte, hphys, Option.map_some]
    simpa only [Option.isSome_map] using hrest

/-- A field of the file. -/
theorem ImageMapped.readField (himage : ImageMapped pml4 f memory)
    (hfits : (address - f.data).toNat + w / 8 ≤ f.size.toNat) :
    ∃ value, readField w pml4 memory address = some value := by
  have hbytes := himage.readNat hfits
  rw [Option.isSome_iff_exists] at hbytes
  obtain ⟨number, hnumber⟩ := hbytes
  exact ⟨BitVec.ofNat w number, by rw [Elf.readField, hnumber, Option.map_some]⟩

/-- A header whose reads stay inside lies in the file as far as it is read. -/
theorem ImageMapped.header_fits (himage : ImageMapped pml4 f memory)
    (hwithin : (readPhdrTraced pml4 memory ph).Within (AllowedAccess f)) :
    (ph - f.data).toNat + 4 ≤ f.size.toNat ∧
      (Elf.readField 32 pml4 memory ph = some ptLoad →
        (ph - f.data).toNat + 48 ≤ f.size.toNat) := by
  rw [readPhdrTraced, Traced.within_bind, within_readFieldTraced (by decide) (by decide)] at hwithin
  obtain ⟨htype, hrest⟩ := hwithin
  refine ⟨htype, fun hload ↦ ?_⟩
  have hfields := hrest ptLoad hload
  rw [if_neg (not_not.mpr rfl), Traced.within_bind,
    within_readFieldTraced (by decide) (by decide)] at hfields
  obtain ⟨hvaddr, hmore⟩ := hfields
  obtain ⟨vaddr, hvalue⟩ := himage.readField (w := 64) hvaddr
  have hmemsz := hmore vaddr hvalue
  rw [Traced.within_bind, within_readFieldTraced (by decide) (by decide),
    show ph + 40#64 - f.data = ph - f.data + 40#64 by grind, BitVec.toNat_add,
    BitVec.toNat_ofNat] at hmemsz
  have hsize := f.size.isLt
  omega

end Mapped

/-! ### A load inside its bounds -/

section Necessity

variable {pml4 address phoff : Word} {f : InitrdFile} {boot : Memory × TableSupply}
  {origin : SpaceState} {memory next : Memory} {supply : TableSupply} {segment : Segment}
  {state : Memory × TableSupply}

/-- The state of a load between two segments, the file readable. -/
structure Reading (pml4 : Word) (boot : Memory × TableSupply) (f : InitrdFile)
    (origin : SpaceState) (memory : Memory) (supply : TableSupply) : Prop where
  load : Loading pml4 boot (fun _ ↦ False) origin memory supply
  image : ImageMapped pml4 f memory

/-- The state of a load while a segment is filled. -/
structure Filling (pml4 : Word) (boot : Memory × TableSupply) (f : InitrdFile)
    (origin : SpaceState) (segment : Segment) (memory : Memory) (supply : TableSupply) : Prop
    extends Reading pml4 boot f origin memory supply where
  pages : PagesLoaded pml4 origin segment segment.pages memory supply

/-- A write to a page of the segment succeeds. -/
theorem Filling.write (hfilling : Filling pml4 boot f origin segment memory supply)
    (hready : SupplyReady origin.supply) (hallowed : AllowedAccess f (.write segment address))
    (value : Byte) : ∃ next, writeByte pml4 memory address value = some next ∧
      Filling pml4 boot f origin segment next supply := by
  obtain ⟨hcanonical, p, hp, hpage⟩ := hallowed
  have hsame : virtualPage address = virtualPage (segment.page p) := by
    rw [← virtualPage_pageOf, hpage]
  obtain ⟨page, hmapped, hloaded⟩ := hfilling.pages p hp
  rw [← hsame] at hmapped
  have hwrite : writeByte pml4 memory address value =
      some (store memory (page ||| (address &&& 0xFFF#64)).toNat value) := by
    rw [writeByte, translate, if_pos hcanonical, hmapped, Option.map_some, Option.map_some]
  obtain ⟨hload, hpages⟩ := hfilling.load.store hready hfilling.pages hp hsame hwrite
  obtain ⟨-, hpaths⟩ := hfilling.load.write_same hready hmapped hloaded hwrite
  refine ⟨_, hwrite, ⟨⟨hload, hfilling.image.mono fun other hother ↦ ?_⟩, hpages⟩⟩
  rwa [pageMap, hpaths pml4 (Or.inl rfl) _ (le_refl 4)]

/-- A byte that is copied inside its bounds is copied. -/
theorem Filling.copyByte (hfilling : Filling pml4 boot f origin segment memory supply)
    (hready : SupplyReady origin.supply) {j : ℕ}
    (hwithin : (copyByteTraced pml4 (f.data + segment.offset) segment j memory).Within
      (AllowedAccess f)) :
    AllowedAccess f (.read (f.data + segment.offset + BitVec.ofNat 64 j)) ∧
      AllowedAccess f (.write segment (segment.vaddr + BitVec.ofNat 64 j)) ∧
        ∃ next, copyByte pml4 (f.data + segment.offset) segment.vaddr j memory = some next ∧
          Filling pml4 boot f origin segment next supply := by
  simp only [copyByteTraced, Traced.within_bind, Traced.within_access, List.mem_singleton,
    forall_eq, Traced.value_access, Traced.value_ofOption] at hwithin
  obtain ⟨hread, hrest⟩ := hwithin
  obtain ⟨phys, hphys⟩ := Option.isSome_iff_exists.mp (hfilling.image.translate hread)
  have hvalue : readByte pml4 memory (f.data + segment.offset + BitVec.ofNat 64 j) =
      some (memory phys.toNat) := by
    rw [readByte, hphys, Option.map_some]
  have hwrite := ((hrest () trivial).2 _ hvalue).1
  obtain ⟨next, hnext, hfilled⟩ := hfilling.write hready hwrite (memory phys.toNat)
  refine ⟨hread, hwrite, next, ?_, hfilled⟩
  rw [Elf.copyByte, hvalue, Option.bind_some, hnext]

/-- A byte that is cleared inside its bounds is cleared. -/
theorem Filling.clearByte (hfilling : Filling pml4 boot f origin segment memory supply)
    (hready : SupplyReady origin.supply) {j : ℕ}
    (hwithin : (clearByteTraced pml4 segment j memory).Within (AllowedAccess f)) :
    AllowedAccess f
        (.write segment (segment.vaddr + BitVec.ofNat 64 (segment.filesz.toNat + j))) ∧
      ∃ next, clearByte pml4 segment.vaddr segment.filesz.toNat j memory = some next ∧
        Filling pml4 boot f origin segment next supply := by
  simp only [clearByteTraced, Traced.within_bind, Traced.within_access, List.mem_singleton,
    forall_eq] at hwithin
  exact ⟨hwithin.1, hfilling.write hready hwithin.1 0#8⟩

/-- The accesses of all bytes of a segment decide whether it lies inside. -/
theorem segmentInside_of_allowed
    (hread : ∀ j < segment.filesz.toNat,
      AllowedAccess f (.read (f.data + segment.offset + BitVec.ofNat 64 j)))
    (hwrite : ∀ j < max segment.filesz.toNat segment.memsz.toNat,
      AllowedAccess f (.write segment (segment.vaddr + BitVec.ofNat 64 j))) :
    SegmentInside f segment := by
  refine ⟨?_, ?_, fun j hj ↦ (hwrite j hj).1⟩
  · refine ((inFile_iff_fits f segment.offset segment.filesz.isLt).mp hread).imp_left fun hzero ↦ ?_
    exact BitVec.eq_of_toNat_eq hzero
  · exact (inPages_iff_fits (max_lt segment.filesz.isLt segment.memsz.isLt)).mp
      fun j hj ↦ (hwrite j hj).2

/-- A segment that is filled inside its bounds lies inside, and is filled. -/
theorem Filling.fillSegment (hfilling : Filling pml4 boot f origin segment memory supply)
    (hready : SupplyReady origin.supply)
    (hwithin : (fillSegmentTraced pml4 f.data segment memory).Within (AllowedAccess f)) :
    SegmentInside f segment ∧ ∃ next, fillSegment pml4 f.data segment memory = some next ∧
      Filling pml4 boot f origin segment next supply := by
  rw [fillSegmentTraced, Traced.within_bind, Traced.within_countedLoop] at hwithin
  simp only [Traced.value_countedLoop, value_copyByteTraced] at hwithin
  obtain ⟨hcopies, hclears⟩ := hwithin
  have hcopied : ∀ count ≤ segment.filesz.toNat, ∃ copied,
      countedLoop (Elf.copyByte pml4 (f.data + segment.offset) segment.vaddr) count memory =
        some copied ∧ Filling pml4 boot f origin segment copied supply := by
    refine fun count hcount ↦ countedLoop_total
      (motive := fun _ memory ↦ Filling pml4 boot f origin segment memory supply) hfilling ?_
    intro j hj reached hreached hfilling
    exact (hfilling.copyByte hready (hcopies j (by omega) reached hreached)).2.2
  obtain ⟨copied, hcopy, hcopiedFilling⟩ := hcopied segment.filesz.toNat (le_refl _)
  have hwithin := hclears copied hcopy
  rw [Traced.within_countedLoop] at hwithin
  simp only [Traced.value_countedLoop, value_clearByteTraced] at hwithin
  have hcleared : ∀ count ≤ segment.memsz.toNat - segment.filesz.toNat, ∃ cleared,
      countedLoop (Elf.clearByte pml4 segment.vaddr segment.filesz.toNat) count copied =
        some cleared ∧ Filling pml4 boot f origin segment cleared supply := by
    refine fun count hcount ↦ countedLoop_total
      (motive := fun _ memory ↦ Filling pml4 boot f origin segment memory supply) hcopiedFilling ?_
    intro j hj reached hreached hfilling
    exact (hfilling.clearByte hready (hwithin j (by omega) reached hreached)).2
  refine ⟨segmentInside_of_allowed (fun j hj ↦ ?_) (fun j hj ↦ ?_), ?_⟩
  · obtain ⟨reached, hreached, hfilling⟩ := hcopied j hj.le
    exact (hfilling.copyByte hready (hcopies j hj reached hreached)).1
  · rcases Nat.lt_or_ge j segment.filesz.toNat with hlt | hge
    · obtain ⟨reached, hreached, hfilling⟩ := hcopied j hlt.le
      exact (hfilling.copyByte hready (hcopies j hlt reached hreached)).2.1
    · obtain ⟨past, rfl⟩ := Nat.exists_eq_add_of_le hge
      obtain ⟨reached, hreached, hfilling⟩ := hcleared past (by omega)
      exact (hfilling.clearByte hready (hwithin past (by omega) reached hreached)).1
  · obtain ⟨cleared, hclear, hfilled⟩ := hcleared _ (le_refl _)
    exact ⟨cleared, by rw [Elf.fillSegment, hcopy, Option.bind_some, hclear], hfilled⟩

/-- A page that is mapped stays mapped when a page of a segment is. -/
theorem Loading.mapPage_mapped {kernel : Word → Prop} {p : ℕ}
    (hload : Loading pml4 boot kernel origin memory supply)
    (hclean : ∀ pa pmm, pmmAllocPage supply.pmm = (pa, pmm) →
      CleanDirectories memory { supply with pmm := pmm } pml4 (segment.page p))
    (hmap : Elf.mapPage pml4 segment p (memory, supply) = some (Sum.inr state)) {page : VirtualPage}
    (hpage : (pageMap memory pml4 page).isSome) : (pageMap state.1 pml4 page).isSome := by
  rcases mapPage_cases hload.spaces.ready.region hmap with
    hexit | ⟨pa, pmm, next, supplyNext, halloc, -, htook, hvmm, hsame⟩
  · cases hexit
  · obtain rfl := Sum.inr.inj hsame
    have hupdate := hload.spaceUpdate htook (hclean pa pmm halloc) hvmm
    by_cases hself : page = virtualPage (segment.page p)
    · rw [hself, hupdate.self]
      rfl
    · obtain ⟨phys, hphys⟩ := Option.isSome_iff_exists.mp hpage
      rw [hupdate.kept pml4 (Or.inl rfl) page hself phys hphys]
      rfl

/-- Mapping the pages of a segment leaves the file readable. -/
theorem Reading.mapPages (hreading : Reading pml4 boot f origin state.1 state.2)
    (hready : SupplyReady origin.supply) (hclean : CleanSegment pml4 segment state)
    {reached : Memory × TableSupply}
    (hloop : leavingLoop (mapPage pml4 segment) segment.pages state = some (Sum.inr reached)) :
    Filling pml4 boot f origin segment reached.1 reached.2 := by
  have hnone : PagesLoaded pml4 origin segment 0 state.1 state.2 :=
    fun p hp ↦ absurd hp (Nat.not_lt_zero p)
  have hmapped : Sum.elim (fun _ : Memory × TableSupply ↦ True)
      (fun state : Memory × TableSupply ↦
        (Loading pml4 boot (fun _ ↦ False) origin state.1 state.2 ∧
          PagesLoaded pml4 origin segment segment.pages state.1 state.2) ∧
            ImageMapped pml4 f state.1) (Sum.inr reached) := by
    refine leavingLoop_rule (motive := fun p (state : Memory × TableSupply) ↦
      (Loading pml4 boot (fun _ ↦ False) origin state.1 state.2 ∧
        PagesLoaded pml4 origin segment p state.1 state.2) ∧ ImageMapped pml4 f state.1)
      ⟨⟨hreading.load, hnone⟩, hreading.image⟩ ?_ hloop
    rintro p hp ⟨memory, supply⟩ next hsofar ⟨⟨hload, hpages⟩, himage⟩ hbody
    have hcleanPage : ∀ pa pmm, pmmAllocPage supply.pmm = (pa, pmm) →
        CleanDirectories memory { supply with pmm := pmm } pml4 (segment.page p) :=
      fun pa pmm ↦ hclean p hp (memory, supply) pa pmm hsofar
    have hnext := hload.mapPage hready hpages (fun _ ↦ False.elim) hcleanPage hbody
    rcases next with exit | state
    · trivial
    · exact ⟨hnext, himage.mono fun _ ↦ hload.mapPage_mapped hcleanPage hbody⟩
  obtain ⟨⟨hload, hpages⟩, himage⟩ := hmapped
  exact ⟨⟨hload, himage⟩, hpages⟩

/-- An iteration of the loop over the headers that stays inside: its header lies inside, and the
next one starts as this one did. -/
theorem Reading.loadSegment (hreading : Reading pml4 boot f origin state.1 state.2)
    (hready : SupplyReady origin.supply) {i : ℕ} {phnum : BitVec 16}
    (hphnum : readField 16 pml4 state.1 (f.data + 56#64) = some phnum) (hi : i < phnum.toNat)
    (hclean : ∀ segment,
      readPhdr pml4 state.1 (f.data + phoff + BitVec.ofNat 64 i * 56#64) = some (some segment) →
        CleanSegment pml4 segment state)
    (hwithin : (loadSegmentTraced pml4 f.data phoff i state).Within (AllowedAccess f)) :
    HeaderInside pml4 f (f.data + phoff + BitVec.ofNat 64 i * 56#64) state ∧
      ∀ next, loadSegment pml4 f.data phoff i state = some (Sum.inr next) →
        Reading pml4 boot f origin next.1 next.2 := by
  obtain ⟨memory, supply⟩ := state
  rw [loadSegmentTraced, Traced.within_bind] at hwithin
  have hheader := hwithin.2 phnum hphnum
  rw [if_pos hi, Traced.within_bind, value_readPhdrTraced] at hheader
  obtain ⟨hphdr, hrest⟩ := hheader
  obtain ⟨htype, hfields⟩ := hreading.image.header_fits hphdr
  have hsegment : ∀ segment, readPhdr pml4 memory (f.data + phoff + BitVec.ofNat 64 i * 56#64) =
      some (some segment) → ∀ middle supplyMiddle,
        leavingLoop (mapPage pml4 segment) segment.pages (memory, supply) =
          some (Sum.inr (middle, supplyMiddle)) → SegmentInside f segment ∧
            ∃ next, fillSegment pml4 f.data segment middle = some next ∧
              Filling pml4 boot f origin segment next supplyMiddle := by
    intro segment hsegment middle supplyMiddle hloop
    have hfill := hrest (some segment) hsegment
    rw [loadHeaderTraced, Traced.within_bind, Traced.value_ofOption] at hfill
    have hfill := hfill.2 _ hloop
    rw [fillMapped, Traced.within_bind] at hfill
    have hfilling : Filling pml4 boot f origin segment middle supplyMiddle :=
      hreading.mapPages hready (hclean segment hsegment) hloop
    exact hfilling.fillSegment hready hfill.1
  refine ⟨⟨htype, hfields, ?_⟩, ?_⟩
  · rintro segment hread ⟨⟨middle, supplyMiddle⟩, hloop⟩
    exact (hsegment segment hread middle supplyMiddle hloop).1
  · intro next hbody
    cases loadSegment_cases hbody with
    | skipped => exact hreading
    | loaded _ _ hread hloop hfill =>
      obtain ⟨-, filled, hfilled, hfilling⟩ := hsegment _ hread _ _ hloop
      obtain rfl := Option.some.inj (hfilled.symm.trans hfill)
      exact hfilling.toReading

/-- Every state that the loop over the headers comes to, when its iterations stay inside. -/
theorem Reading.of_loop (hstart : Reading pml4 boot f origin state.1 state.2)
    (hready : SupplyReady origin.supply)
    (hclean : EverySegment pml4 f.data phoff state (CleanSegment pml4)) {i : ℕ}
    (hwithin : ∀ k < i, ∀ reached,
      leavingLoop (Elf.loadSegment pml4 f.data phoff) k state = some (Sum.inr reached) →
        (loadSegmentTraced pml4 f.data phoff k reached).Within (AllowedAccess f))
    {reached : Memory × TableSupply}
    (hloop : leavingLoop (Elf.loadSegment pml4 f.data phoff) i state = some (Sum.inr reached)) :
    Reading pml4 boot f origin reached.1 reached.2 := by
  have hreached : Sum.elim (fun _ : Bool × Memory × TableSupply ↦ True)
      (fun reached : Memory × TableSupply ↦ Reading pml4 boot f origin reached.1 reached.2)
        (Sum.inr reached) := by
    refine leavingLoop_rule (motive := fun _ (reached : Memory × TableSupply) ↦
      Reading pml4 boot f origin reached.1 reached.2) hstart ?_ hloop
    rintro k hk before next hsofar hreading hbody
    rcases next with exit | next
    · trivial
    have hnext : ∀ phnum, readField 16 pml4 before.1 (f.data + 56#64) = some phnum →
        k < phnum.toNat → Reading pml4 boot f origin next.1 next.2 := fun phnum hphnum hk' ↦
      (hreading.loadSegment hready hphnum hk'
        (fun segment ↦ hclean k before phnum segment hsofar hphnum hk')
          (hwithin k hk before hsofar)).2 next hbody
    cases loadSegment_cases hbody with
    | skipped hphnum hk' => exact hnext _ hphnum hk'
    | loaded hphnum hk' => exact hnext _ hphnum hk'
  exact hreached

/-- A readable file that is loaded inside its bounds lies inside them. -/
theorem fileInside_of_loadsInside
    (hspaces : Spaces (origin.Root pml4) origin.memory origin.supply)
    (himage : ImageMapped pml4 f origin.memory)
    (hclean : ∀ phoff, readField 64 pml4 origin.memory (f.data + 32#64) = some phoff →
      EverySegment pml4 f.data phoff (origin.memory, origin.supply) (CleanSegment pml4))
    (hinside : LoadsInside pml4 f (origin.memory, origin.supply)) :
    FileInside pml4 f (origin.memory, origin.supply) := by
  intro haccepted phoff hphoff i state phnum hloop hphnum hi
  have hsize : ¬ f.size < ehdrSize := fun hsmall ↦ haccepted (.inl hsmall)
  have hbytes : 64 ≤ f.size.toNat := by
    rw [BitVec.lt_def] at hsize
    exact Nat.not_lt.mp hsize
  have hself : (f.data - f.data).toNat + 4 ≤ f.size.toNat := by
    rw [BitVec.sub_self, BitVec.toNat_ofNat]
    omega
  have hnear : (f.data + 18#64 - f.data).toNat + 2 ≤ f.size.toNat := by
    rw [show f.data + 18#64 - f.data = 18#64 by grind, BitVec.toNat_ofNat]
    omega
  have hmagic : readField 32 pml4 origin.memory f.data = some elfMagic := by
    obtain ⟨magic, hmagic⟩ := himage.readField (w := 32) hself
    rw [hmagic]
    by_contra hne
    exact haccepted (.inr (.inl ⟨magic, hmagic, fun heq ↦ hne (by rw [heq])⟩))
  have hmachine : readField 16 pml4 origin.memory (f.data + 18#64) = some emX8664 := by
    obtain ⟨machine, hmachine⟩ := himage.readField (w := 16) hnear
    rw [hmachine]
    by_contra hne
    exact haccepted (.inr (.inr ⟨machine, hmachine, fun heq ↦ hne (by rw [heq])⟩))
  have hsegments := (within_elfLoadTraced hsize).mp hinside hmagic hmachine
  have hwithin := (within_loadSegmentsTraced hsize (2 ^ 16)).mp hsegments phoff hphoff
  have hphnumLt := phnum.isLt
  have hreading : Reading pml4 (origin.memory, origin.supply) f origin state.1 state.2 := by
    refine Reading.of_loop ?_ hspaces.ready (hclean phoff hphoff)
      (fun k hk ↦ hwithin k (by omega)) hloop
    exact ⟨loading_start hspaces, himage⟩
  exact (hreading.loadSegment hspaces.ready hphnum hi
    (fun segment ↦ hclean phoff hphoff i state phnum segment hloop hphnum hi)
      (hwithin i (by omega) state hloop)).1

end Necessity

/-! ### The condition is the one -/

/-- The loader stays inside its file and its pages when the headers that it comes to, and the bytes
of the segments that get their pages, lie inside; from any state of the kernel in which the file is
mapped and the directories that the load makes come zeroed, it stays inside only then. -/
theorem loadsInside_iff (pml4 : Word) (f : InitrdFile) (origin : SpaceState) :
    (FileInside pml4 f (origin.memory, origin.supply) →
      LoadsInside pml4 f (origin.memory, origin.supply)) ∧
      (Spaces (origin.Root pml4) origin.memory origin.supply → ImageMapped pml4 f origin.memory →
        (∀ phoff, readField 64 pml4 origin.memory (f.data + 32#64) = some phoff →
          EverySegment pml4 f.data phoff (origin.memory, origin.supply) (CleanSegment pml4)) →
            LoadsInside pml4 f (origin.memory, origin.supply) →
              FileInside pml4 f (origin.memory, origin.supply)) :=
  ⟨loadsInside_of_fileInside, fileInside_of_loadsInside⟩

/-- A file that ends with its header, which counts one program header. -/
def headerOnly : List Byte :=
  elfHeader 0x180000#64 1#8

theorem headerOnly_fields :
    readField 32 0x1000#64 (lowMachine headerOnly).1 0x10000#64 = some elfMagic ∧
      readField 16 0x1000#64 (lowMachine headerOnly).1 (0x10000#64 + 18#64) = some emX8664 ∧
        readField 64 0x1000#64 (lowMachine headerOnly).1 (0x10000#64 + 32#64) = some 64#64 ∧
          readField 16 0x1000#64 (lowMachine headerOnly).1 (0x10000#64 + 56#64) = some 1#16 := by
  decide +kernel

/-- The loader reads that program header, past the end of the file. -/
theorem headerOnly_read_past : ¬ ∀ (pml4 : Word) (f : InitrdFile) (state : Memory × TableSupply),
    LoadsInside pml4 f state := by
  intro hall
  have hinside := hall 0x1000#64 ⟨0#64, 64#32, 0x10000#64⟩ (lowMachine headerOnly)
  obtain ⟨hmagic, hmachine, hphoff, hphnum⟩ := headerOnly_fields
  have hsize : ¬ (64#32 : Word32) < ehdrSize := by decide
  have hsegments := (within_elfLoadTraced hsize).mp hinside hmagic hmachine
  have hfirst := (within_loadSegmentsTraced hsize (2 ^ 16)).mp hsegments 64#64 hphoff 0 (by decide)
    (lowMachine headerOnly) rfl
  rw [loadSegmentTraced, Traced.within_bind] at hfirst
  have hheader := hfirst.2 1#16 hphnum
  rw [if_pos (by decide), Traced.within_bind, readPhdrTraced, Traced.within_bind,
    within_readFieldTraced (by decide) (by decide)] at hheader
  exact absurd hheader.1.1 (by decide)

end Colix.Elf
