import Colix.Initrd.InitrdCorrect

/-!
# What the scan records

`nextHeader` is one iteration of the loop of `initrd_init`: the place of the next header, or none
where the loop ends. `nextHeader_bounds` says what the one check at the end of the iteration is
worth in a 32-bit range: the header, the name and the padded data stand one after another below the
end. By induction over the scan `initrdInit_recorded` follows, for whatever bytes the archive has.
-/

set_option autoImplicit false
set_option relaxedAutoImplicit false

namespace Colix.Initrd

open Foundation

/-! ### One iteration -/

/-- The entry that the loop makes of the header at `p`. -/
def entryAt (memory : Memory) (p : Word) : InitrdFile where
  name := p + newcHeaderSize
  size := hex8ToU32 memory (p + filesizeOffset)
  data := align4Ptr (p + newcHeaderSize + (hex8ToU32 memory (p + namesizeOffset)).setWidth 64)

/-- The header that an entry was made of. -/
def InitrdFile.header (file : InitrdFile) : Word :=
  file.name - newcHeaderSize

/-- The size of the name of an entry, from its header. -/
def InitrdFile.namesize (memory : Memory) (file : InitrdFile) : Word32 :=
  hex8ToU32 memory (file.header + namesizeOffset)

/-- The end of the data of an entry, with its padding. -/
def InitrdFile.paddedEnd (file : InitrdFile) : Word :=
  align4Ptr (file.data + file.size.setWidth 64)

/-- The header at `p` is that of the trailer. -/
def IsTrailer (memory : Memory) (p : Word) : Prop :=
  hex8ToU32 memory (p + namesizeOffset) = 11#32 ∧
    memcmpSimple (byteAt memory (p + newcHeaderSize)) (fun i ↦ trailerName.getD i 0#8) 10 = 0

instance (memory : Memory) (p : Word) : Decidable (IsTrailer memory p) :=
  inferInstanceAs (Decidable (_ ∧ _))

/-- The header behind the one at `p`. `none` is the end of the loop. -/
def nextHeader (memory : Memory) (endPtr p : Word) : Option Word :=
  if p + newcHeaderSize ≤ endPtr ∧ magicMatches memory p ∧ ¬ IsTrailer memory p ∧
      (entryAt memory p).paddedEnd ≤ endPtr then
    some (entryAt memory p).paddedEnd
  else none

section Iteration

variable {memory : Memory} {p next endPtr : Word} {files : List InitrdFile}

@[simp] theorem header_entryAt : (entryAt memory p).header = p :=
  BitVec.add_sub_cancel p newcHeaderSize

/-- The scan takes an entry, or ends. -/
theorem initrdScan_succ (fuel : ℕ) : initrdScan memory endPtr (fuel + 1) p files =
    match nextHeader memory endPtr p with
    | none => some files
    | some next => initrdScan memory endPtr fuel next (addFile files (entryAt memory p)) := by
  by_cases hgoes : p + newcHeaderSize ≤ endPtr ∧ magicMatches memory p ∧ ¬ IsTrailer memory p ∧
      (entryAt memory p).paddedEnd ≤ endPtr
  · have hnext : nextHeader memory endPtr p = some (entryAt memory p).paddedEnd := if_pos hgoes
    obtain ⟨hroom, hmagic, htrailer, hfits⟩ := hgoes
    rw [hnext, initrdScan, if_pos hroom, if_pos hmagic]
    exact (if_neg htrailer).trans (if_neg (BitVec.not_lt.mpr hfits))
  · have hnext : nextHeader memory endPtr p = none := if_neg hgoes
    rw [hnext, initrdScan]
    by_cases hroom : p + newcHeaderSize ≤ endPtr
    · rw [if_pos hroom]
      by_cases hmagic : magicMatches memory p
      · rw [if_pos hmagic]
        by_cases htrailer : IsTrailer memory p
        · exact if_pos htrailer
        · have hpast : ¬ (entryAt memory p).paddedEnd ≤ endPtr :=
            fun hfits ↦ hgoes ⟨hroom, hmagic, htrailer, hfits⟩
          exact (if_neg htrailer).trans (if_pos (BitVec.not_le.mp hpast))
      · rw [if_neg hmagic]
    · rw [if_neg hroom]

/-- `align4_ptr` rounds up to a multiple of four. -/
theorem toNat_align4Ptr {x : Word} (haddress : x.toNat + 3 < 2 ^ 64) :
    (align4Ptr x).toNat = (x.toNat + 3) / 4 * 4 := by
  have hmask := toNat_and_not_lowMask (by decide : 2 ≤ 64) (x + 3#64)
  rw [show BitVec.ofNat 64 (2 ^ 2 - 1) = 3#64 from rfl,
    toNat_add_lt (show x.toNat + (3#64).toNat < 2 ^ 64 from haddress)] at hmask
  exact hmask

/-- A 32-bit number as a pointer offset. -/
theorem toNat_pointer_size {x : Word} {size : Word32} (haddress : x.toNat + size.toNat < 2 ^ 64) :
    (x + size.setWidth 64).toNat = x.toNat + size.toNat := by
  rw [toNat_add_lt (by rw [toNat_setWidth_64]; exact haddress), toNat_setWidth_64]

/-- The places of an entry, one after another. -/
structure EntryPlaces (memory : Memory) (p next : Word) : Prop where
  name : (entryAt memory p).name.toNat = p.toNat + 110
  data : (entryAt memory p).name.toNat + ((entryAt memory p).namesize memory).toNat ≤
    (entryAt memory p).data.toNat
  data_aligned : 4 ∣ (entryAt memory p).data.toNat
  next : (entryAt memory p).data.toNat + (entryAt memory p).size.toNat ≤ next.toNat

/-- An entry below 2^32: the check of its end bounds all its places. -/
theorem entryPlaces (hlow : p.toNat + 110 < 2 ^ 33) :
    EntryPlaces memory p (entryAt memory p).paddedEnd := by
  have hnamesize := (hex8ToU32 memory (p + namesizeOffset)).isLt
  have hfilesize : (entryAt memory p).size.toNat < 2 ^ 32 :=
    (hex8ToU32 memory (p + filesizeOffset)).isLt
  have hname : (p + newcHeaderSize).toNat = p.toNat + 110 :=
    toNat_add_lt (show p.toNat + (110#64).toNat < 2 ^ 64 from by simp; omega)
  have hnameEnd : (p + newcHeaderSize +
      (hex8ToU32 memory (p + namesizeOffset)).setWidth 64).toNat = _ :=
    toNat_pointer_size (by omega)
  have hdata : (entryAt memory p).data.toNat = _ := toNat_align4Ptr (by omega)
  have hdataEnd : ((entryAt memory p).data + (entryAt memory p).size.setWidth 64).toNat = _ :=
    toNat_pointer_size (by omega)
  have hnext : (entryAt memory p).paddedEnd.toNat = _ := toNat_align4Ptr (by omega)
  refine ⟨hname, ?_, ?_, ?_⟩
  · rw [InitrdFile.namesize, header_entryAt]
    change (p + newcHeaderSize).toNat + _ ≤ _
    omega
  · rw [hdata]
    exact Nat.dvd_mul_left 4 _
  · omega

/-- What an iteration that goes on has checked. -/
theorem nextHeader_eq_some (hnext : nextHeader memory endPtr p = some next) :
    p + newcHeaderSize ≤ endPtr ∧ magicMatches memory p ∧ ¬ IsTrailer memory p ∧
      next ≤ endPtr ∧ next = (entryAt memory p).paddedEnd := by
  rw [nextHeader, Option.ite_none_right_eq_some, Option.some.injEq] at hnext
  obtain ⟨⟨hroom, hmagic, htrailer, hfits⟩, rfl⟩ := hnext
  exact ⟨hroom, hmagic, htrailer, hfits, rfl⟩

/-- An iteration that goes on moves forward, and not past the end. -/
theorem nextHeader_bounds (hp : p.toNat < 2 ^ 32)
    (hnext : nextHeader memory endPtr p = some next) :
    EntryPlaces memory p next ∧ next.toNat ≤ endPtr.toNat := by
  obtain ⟨-, -, -, hfits, rfl⟩ := nextHeader_eq_some hnext
  exact ⟨entryPlaces (by omega), BitVec.le_def.mp hfits⟩

theorem EntryPlaces.lt (hplaces : EntryPlaces memory p next) : p.toNat + 110 ≤ next.toNat := by
  have hname := hplaces.name
  have hdata := hplaces.data
  have hlast := hplaces.next
  omega

end Iteration

/-! ### The scan -/

/-- What holds of a recorded entry: it is what its header says, and its name and its data lie in the
archive. -/
structure Recorded (memory : Memory) (start endPtr : Word) (file : InitrdFile) : Prop where
  magic : magicMatches memory file.header
  size_eq : file.size = hex8ToU32 memory (file.header + filesizeOffset)
  header : start.toNat ≤ file.header.toNat ∧ file.header.toNat + 110 = file.name.toNat
  name_within : start.toNat ≤ file.name.toNat ∧
    file.name.toNat + (file.namesize memory).toNat ≤ endPtr.toNat
  name_before : file.name.toNat + (file.namesize memory).toNat ≤ file.data.toNat
  data_within : start.toNat ≤ file.data.toNat ∧
    file.data.toNat + file.size.toNat ≤ endPtr.toNat
  data_aligned : 4 ∣ file.data.toNat
  padded : file.data.toNat + file.size.toNat ≤ file.paddedEnd.toNat ∧
    file.paddedEnd.toNat ≤ endPtr.toNat

/-- The table when the loop is at `p`: the spans of its entries, from the header to the end of the
padded data, stand below `p` one after another. -/
structure ScanInvariant (memory : Memory) (start endPtr p : Word) (files : List InitrdFile) :
    Prop where
  low : start.toNat ≤ p.toNat
  length : files.length ≤ initrdMaxFiles
  recorded : ∀ file ∈ files, Recorded memory start endPtr file ∧ file.paddedEnd.toNat ≤ p.toNat
  increasing : files.Pairwise fun first second ↦ first.paddedEnd.toNat ≤ second.header.toNat

section Scan

variable {memory : Memory} {start p next endPtr : Word} {files : List InitrdFile}

/-- The entry of an iteration that goes on. -/
theorem recorded_entryAt (hp : p.toNat < 2 ^ 32) (hlow : start.toNat ≤ p.toNat)
    (hnext : nextHeader memory endPtr p = some next) :
    Recorded memory start endPtr (entryAt memory p) := by
  obtain ⟨-, hmagic, -, -, hpadded⟩ := nextHeader_eq_some hnext
  obtain ⟨⟨hname, hdata, haligned, hlast⟩, hfits⟩ := nextHeader_bounds hp hnext
  subst hpadded
  refine ⟨?_, ?_, ⟨?_, ?_⟩, by omega, hdata, by omega, haligned, hlast, hfits⟩
  · rw [header_entryAt]
    exact hmagic
  · rw [header_entryAt]
    rfl
  · rw [header_entryAt]
    exact hlow
  · rw [header_entryAt, hname]

/-- An iteration keeps the invariant. -/
theorem ScanInvariant.step (hinv : ScanInvariant memory start endPtr p files)
    (hp : p.toNat < 2 ^ 32) (hnext : nextHeader memory endPtr p = some next) :
    ScanInvariant memory start endPtr next (addFile files (entryAt memory p)) := by
  have hforward := (nextHeader_bounds hp hnext).1.lt
  have hpadded := (nextHeader_eq_some hnext).2.2.2.2
  have hnew := recorded_entryAt hp hinv.low hnext
  have hbefore : ∀ file ∈ files, Recorded memory start endPtr file ∧
      file.paddedEnd.toNat ≤ next.toNat := by
    intro file hfile
    obtain ⟨hrecorded, hbelow⟩ := hinv.recorded file hfile
    exact ⟨hrecorded, by omega⟩
  have hlow := hinv.low
  have hlength := hinv.length
  rw [addFile]
  by_cases hroom : files.length < initrdMaxFiles
  · rw [if_pos hroom]
    refine ⟨by omega, ?_, ?_, ?_⟩
    · rw [List.length_append, List.length_singleton]
      exact hroom
    · intro file hfile
      rw [List.mem_append, List.mem_singleton] at hfile
      rcases hfile with hold | rfl
      · exact hbefore file hold
      · exact ⟨hnew, by rw [hpadded]⟩
    · rw [List.pairwise_append]
      refine ⟨hinv.increasing, List.pairwise_singleton _ _, fun first hfirst second hsecond ↦ ?_⟩
      rw [List.mem_singleton] at hsecond
      subst hsecond
      rw [header_entryAt]
      exact (hinv.recorded first hfirst).2
  · rw [if_neg hroom]
    exact ⟨by omega, hlength, hbefore, hinv.increasing⟩

/-- The scan ends, with a table that keeps the invariant. -/
theorem initrdScan_invariant {fuel : ℕ} (hinv : ScanInvariant memory start endPtr p files)
    (hp : p.toNat < 2 ^ 32) (hend : endPtr.toNat < 2 ^ 32) (hpositive : 0 < fuel)
    (hfuel : endPtr.toNat < p.toNat + fuel) :
    ∃ table last, initrdScan memory endPtr fuel p files = some table ∧
      ScanInvariant memory start endPtr last table := by
  induction fuel generalizing p files with
  | zero => exact absurd hpositive (Nat.lt_irrefl 0)
  | succ fuel ih =>
    rw [initrdScan_succ]
    cases hnext : nextHeader memory endPtr p with
    | none => exact ⟨files, p, rfl, hinv⟩
    | some next =>
      obtain ⟨hplaces, hfits⟩ := nextHeader_bounds hp hnext
      have hforward := hplaces.lt
      exact ih (hinv.step hp hnext) (by omega) (by omega) (by omega)

end Scan

/-- A 32-bit address as a pointer. -/
theorem toNat_address_lt (address : Word32) : (address.setWidth 64 : Word).toNat < 2 ^ 32 := by
  rw [toNat_setWidth_64]
  exact address.isLt

/-- The scan of the bytes between two 32-bit addresses ends. -/
theorem exists_initrdInit (memory : Memory) (start endPtr : Word32) :
    ∃ files last, initrdInit memory (start.setWidth 64) (endPtr.setWidth 64) = some files ∧
      ScanInvariant memory (start.setWidth 64) (endPtr.setWidth 64) last files :=
  initrdScan_invariant
    ⟨le_refl _, Nat.zero_le _, fun _ hmem ↦ absurd hmem List.not_mem_nil, List.Pairwise.nil⟩
    (toNat_address_lt start) (toNat_address_lt endPtr) (Nat.succ_pos _)
    (show _ < _ + ((endPtr.setWidth 64 : Word).toNat + 1) by omega)

/-- `initrd_init` over any bytes between two 32-bit addresses: the scan ends, at most 128 entries
are recorded, each has its name and its data in the archive, and their spans follow one another. -/
theorem initrdInit_recorded (memory : Memory) (start endPtr : Word32) :
    ∃ files, initrdInit memory (start.setWidth 64) (endPtr.setWidth 64) = some files ∧
      files.length ≤ initrdMaxFiles ∧
      (∀ file ∈ files, Recorded memory (start.setWidth 64) (endPtr.setWidth 64) file) ∧
        files.Pairwise fun first second ↦ first.paddedEnd.toNat ≤ second.header.toNat := by
  obtain ⟨files, last, hscan, hinv⟩ := exists_initrdInit memory start endPtr
  exact ⟨files, hscan, hinv.length, fun file hfile ↦ (hinv.recorded file hfile).1,
    hinv.increasing⟩

end Colix.Initrd
