import Colix.Initrd.Initrd

/-!
# The newc archive format

The cpio newc encoding that the parser reads, as a relation between entries and bytes, so that the
letter case of the digits, the unread header fields, the padding and the bytes behind the trailer
are free. `IsNewcHeader.holds` and `IsNewcEntry.holds` say where in memory each part stands.
-/

set_option autoImplicit false
set_option relaxedAutoImplicit false

namespace Colix.Initrd

open Foundation

/-! ### Entries and archives -/

/-- A named file. The name is not empty, has no NUL and is not the trailer's. -/
structure NewcFile where
  name : List Byte
  data : List Byte
  name_ne_nil : name ≠ []
  nul_free : 0#8 ∉ name
  not_trailer : name ≠ trailerName

/-- A header field: eight hexadecimal digits. -/
def IsHex8 (field : List Byte) (number : ℕ) : Prop :=
  field.length = 8 ∧ IsHexNumeral 0 field number

/-- A header of 110 bytes with the two sizes; the other fields are any bytes. -/
def IsNewcHeader (header : List Byte) (filesize namesize : ℕ) : Prop :=
  ∃ inoToMtime size majorMinor nameSize check : List Byte,
    header = newcMagic ++ (inoToMtime ++ (size ++ (majorMinor ++ (nameSize ++ check)))) ∧
      inoToMtime.length = 48 ∧ IsHex8 size filesize ∧ majorMinor.length = 32 ∧
        IsHex8 nameSize namesize ∧ check.length = 8

/-- Padding that completes a length to a multiple of four. -/
def IsPadding (length : ℕ) (padding : List Byte) : Prop :=
  padding.length < 4 ∧ 4 ∣ length + padding.length

/-- The encoding of one entry: its header, its name with a NUL, and its data, both padded. -/
def IsNewcEntry (name data bytes : List Byte) : Prop :=
  ∃ header namePadding dataPadding : List Byte,
    bytes = header ++ ((name ++ [0#8]) ++ (namePadding ++ (data ++ dataPadding))) ∧
      IsNewcHeader header data.length (name.length + 1) ∧
        IsPadding (110 + (name.length + 1)) namePadding ∧ IsPadding data.length dataPadding

/-- The encoding of a list of entries: theirs, a trailer, and any bytes behind it. -/
inductive IsNewcArchive : List NewcFile → List Byte → Prop
  | trailer {bytes : List Byte} (trailing : List Byte) :
      IsNewcEntry trailerName [] bytes → IsNewcArchive [] (bytes ++ trailing)
  | entry {file : NewcFile} {files : List NewcFile} {bytes rest : List Byte} :
      IsNewcEntry file.name file.data bytes → IsNewcArchive files rest →
        IsNewcArchive (file :: files) (bytes ++ rest)

/-! ### An encoder -/

/-- Zeros that complete a length to a multiple of four. -/
def zeroPadding (length : ℕ) : List Byte :=
  List.replicate ((4 - length % 4) % 4) 0#8

/-- A header whose other fields are zero. -/
def newcHeader (filesize namesize : ℕ) : List Byte :=
  newcMagic ++ (List.replicate 48 0x30#8 ++ (hexNumeral 8 filesize ++
    (List.replicate 32 0x30#8 ++ (hexNumeral 8 namesize ++ List.replicate 8 0x30#8))))

def newcEntry (name data : List Byte) : List Byte :=
  newcHeader data.length (name.length + 1) ++ ((name ++ [0#8]) ++
    (zeroPadding (110 + (name.length + 1)) ++ (data ++ zeroPadding data.length)))

def newcArchive : List NewcFile → List Byte
  | [] => newcEntry trailerName []
  | file :: files => newcEntry file.name file.data ++ newcArchive files

theorem isPadding_zeroPadding (length : ℕ) : IsPadding length (zeroPadding length) := by
  rw [IsPadding, zeroPadding, List.length_replicate]
  omega

theorem isHex8_hexNumeral {number : ℕ} (hnumber : number < 2 ^ 32) :
    IsHex8 (hexNumeral 8 number) number := by
  have hnumeral := isHexNumeral_hexNumeral 0 8 number
  rw [Nat.zero_mul, Nat.zero_add, Nat.mod_eq_of_lt (by omega)] at hnumeral
  exact ⟨length_hexNumeral 8 number, hnumeral⟩

theorem isNewcEntry_newcEntry {name data : List Byte} (hname : name.length + 1 < 2 ^ 32)
    (hdata : data.length < 2 ^ 32) : IsNewcEntry name data (newcEntry name data) :=
  ⟨_, _, _, rfl,
    ⟨_, _, _, _, _, rfl, List.length_replicate, isHex8_hexNumeral hdata, List.length_replicate,
      isHex8_hexNumeral hname, List.length_replicate⟩,
    isPadding_zeroPadding _, isPadding_zeroPadding _⟩

/-- The encoder gives an archive of the files, when their lengths fit in 32 bits. -/
theorem isNewcArchive_newcArchive {files : List NewcFile}
    (hfiles : ∀ file ∈ files, file.name.length + 1 < 2 ^ 32 ∧ file.data.length < 2 ^ 32) :
    IsNewcArchive files (newcArchive files) := by
  induction files with
  | nil =>
    rw [newcArchive, ← List.append_nil (newcEntry _ _)]
    exact IsNewcArchive.trailer [] (isNewcEntry_newcEntry (by decide) (by decide))
  | cons file files ih =>
    obtain ⟨hname, hdata⟩ := hfiles file List.mem_cons_self
    exact IsNewcArchive.entry (isNewcEntry_newcEntry hname hdata)
      (ih fun later hlater ↦ hfiles later (List.mem_cons_of_mem _ hlater))

/-! ### The parts in memory -/

variable {memory : Memory} {address : ℕ} {header name data bytes : List Byte}
  {filesize namesize : ℕ}

theorem IsNewcHeader.length_eq (hheader : IsNewcHeader header filesize namesize) :
    header.length = 110 := by
  obtain ⟨inoToMtime, size, majorMinor, nameSize, check, rfl, hino, hsize, hmajor, hname, hcheck⟩ :=
    hheader
  simp only [List.length_append, hino, hsize.1, hmajor, hname.1, hcheck]
  rfl

/-- Where the fields of a header that are read stand. -/
theorem IsNewcHeader.holds (hheader : IsNewcHeader header filesize namesize)
    (hholds : Holds memory address header) :
    Holds memory address newcMagic ∧
      (∃ size, IsHex8 size filesize ∧ Holds memory (address + 54) size) ∧
        ∃ nameSize, IsHex8 nameSize namesize ∧ Holds memory (address + 94) nameSize := by
  obtain ⟨inoToMtime, size, majorMinor, nameSize, check, rfl, hino, hsize, hmajor, hname, hcheck⟩ :=
    hheader
  simp only [holds_append, hino, hsize.1, hmajor, hname.1, Nat.add_assoc] at hholds
  obtain ⟨hmagic, -, hfilesize, -, hnamesize, -⟩ := hholds
  exact ⟨hmagic, ⟨size, hsize, hfilesize⟩, ⟨nameSize, hname, hnamesize⟩⟩

/-- The places of the name and the data of an entry, and its end. -/
theorem IsNewcEntry.holds (hentry : IsNewcEntry name data bytes)
    (hholds : Holds memory address bytes) :
    ∃ header namePadding dataPadding : List Byte,
      IsNewcHeader header data.length (name.length + 1) ∧
      Holds memory address header ∧ Holds memory (address + 110) (name ++ [0#8]) ∧
        IsPadding (110 + (name.length + 1)) namePadding ∧
          Holds memory (address + 110 + (name.length + 1) + namePadding.length) data ∧
            IsPadding data.length dataPadding ∧
              bytes.length = 110 + (name.length + 1) + namePadding.length + data.length +
                dataPadding.length := by
  obtain ⟨header, namePadding, dataPadding, rfl, hheader, hname, hdata⟩ := hentry
  have hlength := hheader.length_eq
  have hnul : (name ++ [0#8]).length = name.length + 1 := List.length_append
  obtain ⟨hheld, hbody⟩ := holds_append.mp hholds
  rw [hlength] at hbody
  obtain ⟨hnameHeld, hpadded⟩ := holds_append.mp hbody
  rw [hnul] at hpadded
  obtain ⟨-, hrest⟩ := holds_append.mp hpadded
  obtain ⟨hdataHeld, -⟩ := holds_append.mp hrest
  refine ⟨header, namePadding, dataPadding, hheader, hheld, hnameHeld, hname, hdataHeld, hdata, ?_⟩
  simp only [List.length_append, hlength, List.length_singleton]
  omega

/-- An entry fills a multiple of four bytes, enough for its header and its name. -/
theorem IsNewcEntry.length (hentry : IsNewcEntry name data bytes) :
    4 ∣ bytes.length ∧ 110 + (name.length + 1) ≤ bytes.length := by
  obtain ⟨header, namePadding, dataPadding, rfl, hheader, hname, hdata⟩ := hentry
  have hlength := hheader.length_eq
  have hname4 := hname.2
  have hdata4 := hdata.2
  simp only [List.length_append, hlength, List.length_singleton]
  omega

end Colix.Initrd
