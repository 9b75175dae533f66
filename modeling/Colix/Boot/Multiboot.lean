import Colix.Foundation.Alignment
import Colix.Foundation.ByteMemory
import Colix.Types

/-!
# The Multiboot2 info block

What `kernel_main` reads of the block: `parse_mmap`, which walks the memory maps and keeps the
longest available entry, the skip of the first 2 MiB, and the walk to the first module.

`InfoBlock` says that a block in memory is well formed, tag by tag, and `parseMmap_of_block` that
`parse_mmap` then returns the running maximum of its entries, in order, from the default region on.
-/

set_option autoImplicit false
set_option relaxedAutoImplicit false

namespace Colix.Boot

open Foundation

/-! ### The source -/

/-- `mb2_mmap_entry_t`. -/
structure MmapEntry where
  baseAddr : Word
  length : Word
  type : Word32

/-- `best_base` and `best_size`, later `mem_base` and `mem_size`. -/
structure Region where
  base : Word
  size : Word
deriving DecidableEq

/-- `ALIGN_UP(size, 8)` on the `uint32_t` of a tag. -/
def alignTagSize (size : Word32) : Word32 :=
  (size + 7#32) &&& ~~~7#32

/-- The default of `parse_mmap`: 32 MB from 1 MB on. -/
def defaultRegion : Region where
  base := 0x100000#64
  size := 0x2000000#64

/-- The entry at a pointer. -/
def readEntry (memory : Memory) (e : Word) : MmapEntry where
  baseAddr := load 64 memory e.toNat
  length := load 64 memory (e.toNat + 8)
  type := load 32 memory (e.toNat + 16)

/-- An available entry replaces a shorter region. -/
def considerEntry (best : Region) (entry : MmapEntry) : Region :=
  if entry.type = 1#32 ∧ best.size < entry.length then ⟨entry.baseAddr, entry.length⟩ else best

/-- The loop over the entries of a memory map. `none` is a loop that has not ended. -/
def parseEntries (memory : Memory) (entrySize : Word32) (ee : Word) :
    ℕ → Word → Region → Option Region
  | 0, _, _ => none
  | fuel + 1, e, best =>
    if e < ee then
      parseEntries memory entrySize ee fuel (e + entrySize.setWidth 64)
        (considerEntry best (readEntry memory e))
    else some best

/-- The loop over the tags. `none` is a loop that has not ended. -/
def parseTags (memory : Memory) (endPtr : Word) : ℕ → Word → Region → Option Region
  | 0, _, _ => none
  | fuel + 1, p, best =>
    if p < endPtr then
      let type : Word32 := load 32 memory p.toNat
      let size : Word32 := load 32 memory (p.toNat + 4)
      if type = 0#32 then some best
      else
        match
          if type = 6#32 then
            parseEntries memory (load 32 memory (p.toNat + 8)) (p + size.setWidth 64) fuel
              (p + 16#64) best
          else some best with
        | none => none
        | some best => parseTags memory endPtr fuel (p + (alignTagSize size).setWidth 64) best
    else some best

/-- `parse_mmap`. -/
def parseMmap (memory : Memory) (info : Word) : Option Region :=
  let totalSize : Word32 := load 32 memory info.toNat
  if info = 0#64 ∨ totalSize < 8#32 then some defaultRegion
  else
    parseTags memory (info + totalSize.setWidth 64) totalSize.toNat (info + 8#64) defaultRegion

/-- The skip of the first 2 MiB in `kernel_main`. -/
def skipKernel (region : Region) : Region :=
  if region.base < 0x200000#64 then
    let skip := 0x200000#64 - region.base
    if skip < region.size then ⟨region.base + skip, region.size - skip⟩
    else ⟨0x200000#64, 0x1000000#64⟩
  else region

/-- The region that `kernel_main` passes to `pmm_init`. -/
def memoryRegion (memory : Memory) (info : Word) : Option Region :=
  (parseMmap memory info).map skipKernel

/-- The walk of `kernel_main` to the first module: `mod_start` and `mod_end`, or NULL. The outer
`none` is a walk that has not ended. -/
def findModule (memory : Memory) : ℕ → Word → Option (Option (Word × Word))
  | 0, _ => none
  | fuel + 1, tag =>
    let type : Word32 := load 32 memory tag.toNat
    if type = 0#32 then some none
    else if type = 3#32 then
      some (some ((load 32 memory (tag.toNat + 8) : Word32).setWidth 64,
        (load 32 memory (tag.toNat + 12) : Word32).setWidth 64))
    else
      findModule memory fuel
        (tag + (alignTagSize (load 32 memory (tag.toNat + 4))).setWidth 64)

/-! ### Well-formed blocks -/

/-- A tag, with the contents that the kernel reads. -/
inductive Tag
  | mmap (size entrySize : Word32) (entries : List MmapEntry)
  | module (size modStart modEnd : Word32)
  | other (type size : Word32)

def Tag.type : Tag → Word32
  | .mmap .. => 6#32
  | .module .. => 3#32
  | .other type _ => type

def Tag.size : Tag → Word32
  | .mmap size .. => size
  | .module size .. => size
  | .other _ size => size

def Tag.entries : Tag → List MmapEntry
  | .mmap _ _ entries => entries
  | _ => []

/-- The space that a tag takes, with its padding. -/
def Tag.space (tag : Tag) : ℕ :=
  (tag.size.toNat + 7) / 8 * 8

/-- The contents of a tag at a place. -/
def Tag.Contents (memory : Memory) (position : ℕ) : Tag → Prop
  | .mmap size entrySize entries =>
    load 32 memory (position + 8) = entrySize ∧ 24 ≤ entrySize.toNat ∧
      size.toNat = 16 + entries.length * entrySize.toNat ∧
        ∀ i entry, entries[i]? = some entry →
          load 64 memory (position + 16 + i * entrySize.toNat) = entry.baseAddr ∧
            load 64 memory (position + 16 + i * entrySize.toNat + 8) = entry.length ∧
              load 32 memory (position + 16 + i * entrySize.toNat + 16) = entry.type
  | .module size modStart modEnd =>
    16 ≤ size.toNat ∧ load 32 memory (position + 8) = modStart ∧
      load 32 memory (position + 12) = modEnd
  | .other type size => 8 ≤ size.toNat ∧ type ≠ 0#32 ∧ type ≠ 3#32 ∧ type ≠ 6#32

/-- The tags stand one after the other from a place on, up to the end tag. -/
def TagsAt (memory : Memory) : ℕ → List Tag → ℕ → Prop
  | position, [], last => position = last ∧ load 32 memory position = 0#32
  | position, tag :: tags, last =>
    load 32 memory position = tag.type ∧ load 32 memory (position + 4) = tag.size ∧
      tag.Contents memory position ∧ TagsAt memory (position + tag.space) tags last

/-- A well-formed block: the tags, the end tag, and nothing after it. -/
structure InfoBlock (memory : Memory) (info : Word) (tags : List Tag) : Prop where
  not_null : info ≠ 0#64
  bound : info.toNat + (load 32 memory info.toNat : Word32).toNat < 2 ^ 64
  size_ge : 16 ≤ (load 32 memory info.toNat : Word32).toNat
  tags : TagsAt memory (info.toNat + 8) tags
    (info.toNat + (load 32 memory info.toNat : Word32).toNat - 8)

/-- What `parse_mmap` needs of a tag: a memory map has its entries, any other tag the eight bytes of
its header. -/
def Tag.MapContents (memory : Memory) (position : ℕ) : Tag → Prop
  | .mmap size entrySize entries =>
    Tag.Contents memory position (.mmap size entrySize entries)
  | .module size _ _ => 8 ≤ size.toNat
  | .other type size => 8 ≤ size.toNat ∧ type ≠ 0#32 ∧ type ≠ 6#32

/-- The tags that `parse_mmap` walks, from a place on up to the end tag. -/
def MapTagsAt (memory : Memory) : ℕ → List Tag → ℕ → Prop
  | position, [], last => position = last ∧ load 32 memory position = 0#32
  | position, tag :: tags, last =>
    load 32 memory position = tag.type ∧ load 32 memory (position + 4) = tag.size ∧
      tag.MapContents memory position ∧ MapTagsAt memory (position + tag.space) tags last

/-- A block that is well formed for `parse_mmap`: the tags and the end tag lie within the block. -/
structure MapBlock (memory : Memory) (info : Word) (tags : List Tag) : Prop where
  not_null : info ≠ 0#64
  bound : info.toNat + (load 32 memory info.toNat : Word32).toNat < 2 ^ 64
  tags : ∃ last, MapTagsAt memory (info.toNat + 8) tags last ∧
    last + 8 ≤ info.toNat + (load 32 memory info.toNat : Word32).toNat

/-- The entries of the memory maps, in order. -/
def mmapEntries (tags : List Tag) : List MmapEntry :=
  tags.flatMap Tag.entries

/-! ### The walks over a well-formed block -/

section Walk

variable {memory : Memory} {tags : List Tag} {position last : ℕ} {p ee : Word}

theorem toNat_alignTagSize {size : Word32} (hsize : size.toNat + 7 < 2 ^ 32) :
    (alignTagSize size).toNat = (size.toNat + 7) / 8 * 8 := by
  have hadd : (size + 7#32).toNat = size.toNat + 7 := by
    rw [BitVec.toNat_add, BitVec.toNat_ofNat, Nat.mod_eq_of_lt (by omega : 7 < 2 ^ 32),
      Nat.mod_eq_of_lt hsize]
  have hround := toNat_and_not_lowMask (by decide : 3 ≤ 32) (size + 7#32)
  rw [hadd] at hround
  exact hround

/-- A pointer that does not wrap. -/
theorem toNat_pointer_add {offset : Word} (hfits : p.toNat + offset.toNat < 2 ^ 64) :
    (p + offset).toNat = p.toNat + offset.toNat := by
  rw [BitVec.toNat_add, Nat.mod_eq_of_lt hfits]

/-- The loop over the entries takes each in turn. -/
theorem parseEntries_of_entries {entrySize : Word32} {entries : List MmapEntry} {fuel : ℕ}
    {best : Region} (hfuel : entries.length < fuel) (hsize : 24 ≤ entrySize.toNat)
    (hend : ee.toNat = p.toNat + entries.length * entrySize.toNat)
    (hentries : ∀ i entry, entries[i]? = some entry →
      load 64 memory (p.toNat + i * entrySize.toNat) = entry.baseAddr ∧
        load 64 memory (p.toNat + i * entrySize.toNat + 8) = entry.length ∧
          load 32 memory (p.toNat + i * entrySize.toNat + 16) = entry.type) :
    parseEntries memory entrySize ee fuel p best = some (entries.foldl considerEntry best) := by
  induction entries generalizing p fuel best with
  | nil =>
    obtain ⟨fuel, rfl⟩ := Nat.exists_eq_succ_of_ne_zero (Nat.ne_of_gt hfuel)
    have hnot : ¬ p < ee := by
      rw [BitVec.lt_def, hend]
      simp
    rw [parseEntries, if_neg hnot]
    rfl
  | cons entry entries ih =>
    obtain ⟨fuel, rfl⟩ :=
      Nat.exists_eq_succ_of_ne_zero (Nat.ne_of_gt ((Nat.zero_le _).trans_lt hfuel))
    rw [List.length_cons] at hfuel hend
    have hproduct : (entries.length + 1) * entrySize.toNat =
        entries.length * entrySize.toNat + entrySize.toNat := Nat.succ_mul _ _
    have heeBound := ee.isLt
    have hlt : p < ee := by
      rw [BitVec.lt_def]
      omega
    have hnext : (p + entrySize.setWidth 64).toNat = p.toNat + entrySize.toNat := by
      rw [toNat_pointer_add (by rw [toNat_setWidth_64]; omega), toNat_setWidth_64]
    have hread : readEntry memory p = entry := by
      obtain ⟨hbase, hlength, htype⟩ := hentries 0 entry rfl
      rw [Nat.zero_mul, Nat.add_zero] at hbase hlength htype
      rw [readEntry, hbase, hlength, htype]
    rw [parseEntries, if_pos hlt, hread, List.foldl_cons]
    refine ih (by omega) (by omega) fun i other hother ↦ ?_
    have hplace : p.toNat + entrySize.toNat + i * entrySize.toNat =
        p.toNat + (i + 1) * entrySize.toNat := by
      rw [Nat.succ_mul]
      omega
    rw [hnext, hplace]
    exact hentries (i + 1) other (by rw [List.getElem?_cons_succ, hother])

/-- A tag takes at least eight bytes, and a byte for each entry. -/
theorem Tag.MapContents.space_ge {tag : Tag} (hcontents : tag.MapContents memory position) :
    8 ≤ tag.space ∧ tag.entries.length < tag.space ∧ tag.size.toNat ≤ tag.space := by
  rw [Tag.space]
  cases tag with
  | mmap size entrySize entries =>
    obtain ⟨-, hentry, hsize, -⟩ := hcontents
    have hproduct : entries.length * 24 ≤ entries.length * entrySize.toNat :=
      Nat.mul_le_mul_left _ hentry
    simp only [Tag.size, Tag.entries]
    omega
  | module size modStart modEnd =>
    replace hcontents : 8 ≤ size.toNat := hcontents
    simp only [Tag.size, Tag.entries, List.length_nil]
    omega
  | other type size =>
    obtain ⟨hsize, -, -⟩ := hcontents
    simp only [Tag.size, Tag.entries, List.length_nil]
    omega

/-- The type of a tag is not that of the end tag. -/
theorem Tag.MapContents.type_ne {tag : Tag} (hcontents : tag.MapContents memory position) :
    tag.type ≠ 0#32 := by
  cases tag with
  | mmap => exact (by decide : (6#32 : Word32) ≠ 0#32)
  | module => exact (by decide : (3#32 : Word32) ≠ 0#32)
  | other => exact hcontents.2.1

/-- The end tag does not come before the tags. -/
theorem MapTagsAt.le (htags : MapTagsAt memory position tags last) : position ≤ last := by
  induction tags generalizing position with
  | nil => exact htags.1.le
  | cons tag tags ih =>
    have hle := ih htags.2.2.2
    omega

/-- What a tag holds is what `parse_mmap` needs. -/
theorem Tag.Contents.mapContents {tag : Tag} (hcontents : tag.Contents memory position) :
    tag.MapContents memory position := by
  cases tag with
  | mmap => exact hcontents
  | module size modStart modEnd =>
    obtain ⟨hsize, -, -⟩ := hcontents
    exact (by decide : 8 ≤ 16).trans hsize
  | other type size => exact ⟨hcontents.1, hcontents.2.1, hcontents.2.2.2⟩

theorem TagsAt.mapTagsAt (htags : TagsAt memory position tags last) :
    MapTagsAt memory position tags last := by
  induction tags generalizing position with
  | nil => exact htags
  | cons tag tags ih =>
    obtain ⟨htype, hsize, hcontents, hrest⟩ := htags
    exact ⟨htype, hsize, hcontents.mapContents, ih hrest⟩

theorem InfoBlock.mapBlock {info : Word} (hblock : InfoBlock memory info tags) :
    MapBlock memory info tags := by
  have hsize := hblock.size_ge
  exact ⟨hblock.not_null, hblock.bound, _, hblock.tags.mapTagsAt, by omega⟩

/-- The contents of a tag depend on its bytes only. -/
theorem Tag.Contents.congr {tag : Tag} {other : Memory} (hcontents : tag.Contents memory position)
    (hagree : ∀ byte, position ≤ byte → byte < position + tag.space → other byte = memory byte) :
    tag.Contents other position := by
  have hload : ∀ {w : ℕ} (offset : ℕ), offset + w / 8 ≤ tag.space →
      load w other (position + offset) = load w memory (position + offset) :=
    fun offset hfits ↦ load_congr fun byte hge hlt ↦ hagree byte (by omega) (by omega)
  obtain ⟨-, -, hsizeLe⟩ := hcontents.mapContents.space_ge
  cases tag with
  | mmap size entrySize entries =>
    obtain ⟨hentrySize, hentry, hsize, hentries⟩ := hcontents
    replace hsizeLe : size.toNat ≤ (Tag.mmap size entrySize entries).space := hsizeLe
    refine ⟨(hload 8 (by omega)).trans hentrySize, hentry, hsize, fun i entry hi ↦ ?_⟩
    obtain ⟨hbase, hlength, htype⟩ := hentries i entry hi
    have hlt : i < entries.length := (List.getElem?_eq_some_iff.mp hi).1
    have hproduct : (i + 1) * entrySize.toNat ≤ entries.length * entrySize.toNat :=
      Nat.mul_le_mul_right _ hlt
    rw [Nat.succ_mul] at hproduct
    simp only [Nat.add_assoc] at hbase hlength htype ⊢
    exact ⟨(hload _ (by omega)).trans hbase, (hload _ (by omega)).trans hlength,
      (hload _ (by omega)).trans htype⟩
  | module size modStart modEnd =>
    obtain ⟨hsize, hstart, hend⟩ := hcontents
    replace hsizeLe : size.toNat ≤ (Tag.module size modStart modEnd).space := hsizeLe
    exact ⟨hsize, (hload 8 (by omega)).trans hstart, (hload 12 (by omega)).trans hend⟩
  | other type size => exact hcontents

/-- The tags depend on the bytes of the block only. -/
theorem TagsAt.congr {other : Memory} (htags : TagsAt memory position tags last)
    (hagree : ∀ byte, position ≤ byte → byte < last + 8 → other byte = memory byte) :
    TagsAt other position tags last := by
  induction tags generalizing position with
  | nil =>
    obtain ⟨rfl, htype⟩ := htags
    exact ⟨rfl, (load_congr fun byte hge hlt ↦ hagree byte hge (by omega)).trans htype⟩
  | cons tag tags ih =>
    obtain ⟨htype, hsize, hcontents, hrest⟩ := htags
    obtain ⟨hspaceGe, -, -⟩ := hcontents.mapContents.space_ge
    have hle := hrest.mapTagsAt.le
    refine ⟨(load_congr fun byte hge hlt ↦ hagree byte hge (by omega)).trans htype,
      (load_congr fun byte hge hlt ↦ hagree byte (by omega) (by omega)).trans hsize,
      hcontents.congr fun byte hge hlt ↦ hagree byte hge (by omega),
      ih hrest fun byte hge hlt ↦ hagree byte (by omega) hlt⟩

/-- A block depends on its own bytes only. -/
theorem InfoBlock.congr {info : Word} {other : Memory} (hblock : InfoBlock memory info tags)
    (hagree : ∀ byte, info.toNat ≤ byte →
      byte < info.toNat + (load 32 memory info.toNat : Word32).toNat →
        other byte = memory byte) :
    InfoBlock other info tags := by
  have hsize := hblock.size_ge
  have hsame : (load 32 other info.toNat : Word32) = load 32 memory info.toNat :=
    load_congr fun byte hge hlt ↦ hagree byte hge (by omega)
  refine ⟨hblock.not_null, ?_, ?_, ?_⟩
  · rw [hsame]
    exact hblock.bound
  · rw [hsame]
    exact hsize
  · rw [hsame]
    exact hblock.tags.congr fun byte hge hlt ↦ hagree byte (by omega) (by omega)

/-- The loop over the tags takes the entries of each in turn. -/
theorem parseTags_of_tags {endPtr : Word} {fuel : ℕ} {best : Region}
    (htags : MapTagsAt memory p.toNat tags last) (hlast : last < endPtr.toNat)
    (hfuel : last < p.toNat + fuel) (hspace : last < p.toNat + 2 ^ 32 - 8) :
    parseTags memory endPtr fuel p best =
      some ((mmapEntries tags).foldl considerEntry best) := by
  induction tags generalizing p fuel best with
  | nil =>
    obtain ⟨rfl, htype⟩ := htags
    obtain ⟨fuel, rfl⟩ := Nat.exists_eq_succ_of_ne_zero (by omega : fuel ≠ 0)
    rw [parseTags, if_pos (BitVec.lt_def.mpr hlast)]
    simp only [htype, ↓reduceIte]
    rfl
  | cons tag tags ih =>
    obtain ⟨htype, hsize, hcontents, hrest⟩ := htags
    obtain ⟨hspaceGe, hentries, hsizeLe⟩ := hcontents.space_ge
    have hle := hrest.le
    have hendBound := endPtr.isLt
    obtain ⟨fuel, rfl⟩ := Nat.exists_eq_succ_of_ne_zero (by omega : fuel ≠ 0)
    have halign : (alignTagSize tag.size).toNat = tag.space :=
      toNat_alignTagSize (by rw [Tag.space] at *; omega)
    have hnext : (p + (alignTagSize tag.size).setWidth 64).toNat = p.toNat + tag.space := by
      rw [toNat_pointer_add (by rw [toNat_setWidth_64]; omega), toNat_setWidth_64, halign]
    have hbody : (if tag.type = 6#32 then
        parseEntries memory (load 32 memory (p.toNat + 8)) (p + tag.size.setWidth 64) fuel
          (p + 16#64) best else some best) = some (tag.entries.foldl considerEntry best) := by
      cases tag with
      | mmap size entrySize entries =>
        obtain ⟨hentrySize, hentryGe, hsizeEq, hread⟩ := hcontents
        simp only [Tag.size] at hsizeLe
        simp only [Tag.type, Tag.size, Tag.entries, ↓reduceIte, hentrySize]
        have hfirst : (p + 16#64).toNat = p.toNat + 16 :=
          toNat_pointer_add (by rw [BitVec.toNat_ofNat]; omega)
        have hee : (p + size.setWidth 64).toNat = p.toNat + size.toNat := by
          rw [toNat_pointer_add (by rw [toNat_setWidth_64]; omega), toNat_setWidth_64]
        refine parseEntries_of_entries ?_ hentryGe (by rw [hee, hfirst]; omega) ?_
        · simp only [Tag.entries] at hentries
          omega
        · rw [hfirst]
          exact hread
      | module => rfl
      | other type size => exact if_neg hcontents.2.2
    rw [parseTags, if_pos (BitVec.lt_def.mpr (by omega))]
    simp only [htype, hsize, if_neg hcontents.type_ne, hbody]
    rw [ih (by rw [hnext]; exact hrest) (by omega) (by omega), mmapEntries, mmapEntries,
      List.flatMap_cons, List.foldl_append]

/-- The first module among the tags. -/
def firstModule : List Tag → Option (Word × Word)
  | [] => none
  | .module _ modStart modEnd :: _ => some (modStart.setWidth 64, modEnd.setWidth 64)
  | _ :: tags => firstModule tags

/-- The walk to the first module finds it. -/
theorem findModule_of_tags {fuel : ℕ} (htags : TagsAt memory p.toNat tags last)
    (hlast : last < 2 ^ 64) (hfuel : last < p.toNat + fuel)
    (hspace : last < p.toNat + 2 ^ 32 - 8) :
    findModule memory fuel p = some (firstModule tags) := by
  induction tags generalizing p fuel with
  | nil =>
    obtain ⟨rfl, htype⟩ := htags
    obtain ⟨fuel, rfl⟩ := Nat.exists_eq_succ_of_ne_zero (by omega : fuel ≠ 0)
    simp only [findModule, htype, ↓reduceIte]
    rfl
  | cons tag tags ih =>
    obtain ⟨htype, hsize, hcontents, hrest⟩ := htags
    obtain ⟨hspaceGe, -, hsizeLe⟩ := hcontents.mapContents.space_ge
    have hle := hrest.mapTagsAt.le
    obtain ⟨fuel, rfl⟩ := Nat.exists_eq_succ_of_ne_zero (by omega : fuel ≠ 0)
    have halign : (alignTagSize tag.size).toNat = tag.space :=
      toNat_alignTagSize (by rw [Tag.space] at *; omega)
    have hnext : (p + (alignTagSize tag.size).setWidth 64).toNat = p.toNat + tag.space := by
      rw [toNat_pointer_add (by rw [toNat_setWidth_64]; omega), toNat_setWidth_64, halign]
    have hwalk : findModule memory fuel (p + (alignTagSize tag.size).setWidth 64) =
        some (firstModule tags) :=
      ih (by rw [hnext]; exact hrest) (by omega) (by omega)
    simp only [findModule, htype, hsize, if_neg hcontents.mapContents.type_ne]
    cases tag with
    | mmap => exact (if_neg (by decide : ¬ (6#32 : Word32) = 3#32)).trans hwalk
    | module size modStart modEnd =>
      obtain ⟨-, hstart, hend⟩ := hcontents
      simp only [Tag.type, ↓reduceIte, hstart, hend, firstModule]
    | other type size => exact (if_neg hcontents.2.2.1).trans hwalk

end Walk

/-! ### The walks of the kernel -/

section Block

variable {memory : Memory} {info : Word} {tags : List Tag}

/-- `parse_mmap` on a well-formed block returns the running maximum of its entries. -/
theorem parseMmap_of_block (hblock : MapBlock memory info tags) :
    parseMmap memory info = some ((mmapEntries tags).foldl considerEntry defaultRegion) := by
  obtain ⟨last, htags, hlast⟩ := hblock.tags
  have hle := htags.le
  have hbound := hblock.bound
  have htotal := (load 32 memory info.toNat : Word32).isLt
  have hnot : ¬ (info = 0#64 ∨ (load 32 memory info.toNat : Word32) < 8#32) := by
    rintro (hnull | hsmall)
    · exact hblock.not_null hnull
    · rw [BitVec.lt_def, BitVec.toNat_ofNat] at hsmall
      omega
  have hfirst : (info + 8#64).toNat = info.toNat + 8 :=
    toNat_pointer_add (by rw [BitVec.toNat_ofNat]; omega)
  have hend : (info + (load 32 memory info.toNat : Word32).setWidth 64).toNat =
      info.toNat + (load 32 memory info.toNat : Word32).toNat := by
    rw [toNat_pointer_add (by rw [toNat_setWidth_64]; exact hbound), toNat_setWidth_64]
  simp only [parseMmap, if_neg hnot]
  refine parseTags_of_tags (by rw [hfirst]; exact htags) ?_ ?_ ?_
  · rw [hend]
    omega
  · rw [hfirst]
    omega
  · rw [hfirst]
    omega

/-- The walk of `kernel_main` on a well-formed block finds the first module. -/
theorem findModule_of_block (hblock : InfoBlock memory info tags) :
    findModule memory (load 32 memory info.toNat : Word32).toNat (info + 8#64) =
      some (firstModule tags) := by
  have hsize := hblock.size_ge
  have hbound := hblock.bound
  have htotal := (load 32 memory info.toNat : Word32).isLt
  have hfirst : (info + 8#64).toNat = info.toNat + 8 :=
    toNat_pointer_add (by rw [BitVec.toNat_ofNat]; omega)
  refine findModule_of_tags (by rw [hfirst]; exact hblock.tags) (by omega) ?_ ?_
  · rw [hfirst]
    omega
  · rw [hfirst]
    omega

end Block

end Colix.Boot
